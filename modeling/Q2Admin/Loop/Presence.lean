import Q2Admin.Loop.PlayerList
import Mathlib.Data.Finset.Card
import Mathlib.Data.Finset.Lattice.Lemmas

/-!
# Who is present

Library `Q2Admin.Loop`. The abstract meaning of the commands about players for the set of those
who are on a server: `PlayerCommand.onPresence`. The handlers keep a counter instead, which a
CONNECT raises and a DISCONNECT lowers in any case and a PLAYERLIST overwrites with its count.
`playercount_exact_iff` says in which sequences of messages every command is taken from the wire
as it was sent and leaves the counter at the size of the set.
-/

namespace Q2Admin

open Exec

variable {N : Nat}

/-- A command about the players, as a game server sends it. -/
inductive PlayerCommand
  | connect (clientId : UInt8) (userinfo : GameString)
  | playerUpdate (clientId : UInt8) (userinfo : GameString)
  | disconnect (clientId : UInt8)
  | playerList (entries : List (UInt8 × GameString)) (few : entries.length ≤ 255)

/-- The ids that have connected, and those that the last PLAYERLIST has listed, each until a
DISCONNECT. -/
structure Presence where
  connected : Finset UInt8
  listed : Finset UInt8

namespace Presence

/-- Nobody is present. -/
def none : Presence := ⟨∅, ∅⟩

/-- The ids that are present. -/
def present (p : Presence) : Finset UInt8 := p.connected ∪ p.listed

/-- A listing of these ids has as many entries as players are present after it: as many of them
repeat an id as there are ids that have connected and are not listed. If no id is listed twice,
everyone who has connected is listed. -/
def Covered (p : Presence) (ids : List UInt8) : Prop :=
  ids.length - ids.toFinset.card = (p.connected \ ids.toFinset).card

end Presence

/-- The loop of `ParsePlayerList` over entries with these ids, `n` of them by the count, ends
behind the last one: it goes on behind an id whose successor is below the count. -/
def EndsWithLast (n : UInt8) : List UInt8 → Prop
  | [] => True
  | [id] => n ≤ id + 1
  | id :: id' :: ids => id + 1 < n ∧ EndsWithLast n (id' :: ids)

namespace PlayerCommand

/-- The encoding of a command. -/
def wire : PlayerCommand → List UInt8
  | connect clientId userinfo => ClientCmd.connect.byte :: clientId :: (userinfo.chars ++ [0])
  | playerUpdate clientId userinfo =>
    ClientCmd.playerupdate.byte :: clientId :: (userinfo.chars ++ [0])
  | disconnect clientId => [ClientCmd.disconnect.byte, clientId]
  | playerList entries _ =>
    ClientCmd.playerlist.byte :: entries.length.toUInt8 ::
      entries.flatMap fun e ↦ e.1 :: (e.2.chars ++ [0])

/-- What a command says about who is present. -/
def onPresence : PlayerCommand → Presence → Presence
  | connect clientId _, p => { p with connected := insert clientId p.connected }
  | playerUpdate _ _, p => p
  | disconnect clientId, p => ⟨p.connected.erase clientId, p.listed.erase clientId⟩
  | playerList entries _, p => { p with listed := (entries.map Prod.fst).toFinset }

/-- The counter leaves the range of a byte. -/
def Wraps (count : UInt8) : PlayerCommand → Prop
  | connect _ _ => count = 255
  | disconnect _ => count = 0
  | _ => False

/-- The command changes the counter as it changes the number of those who are present: a CONNECT
is for an id that is absent and not the last one, a DISCONNECT for one that is present, and a
PLAYERLIST is read to its end and covers who is present. -/
def Counted (p : Presence) : PlayerCommand → Prop
  | connect clientId _ => clientId ∉ p.present ∧ p.present.card < 255
  | playerUpdate _ _ => True
  | disconnect clientId => clientId ∈ p.present
  | playerList entries _ =>
    EndsWithLast entries.length.toUInt8 (entries.map Prod.fst) ∧
      p.Covered (entries.map Prod.fst)

end PlayerCommand

/-- The bytes of a message of commands. -/
def playersWire (cmds : List PlayerCommand) : List UInt8 := cmds.flatMap PlayerCommand.wire

/-- Who is present after a sequence of commands. -/
def presentAfter (p : Presence) (cmds : List PlayerCommand) : Presence :=
  cmds.foldl (fun p cmd ↦ cmd.onPresence p) p

instance decidableEndsWithLast (n : UInt8) : (ids : List UInt8) → Decidable (EndsWithLast n ids)
  | [] => .isTrue trivial
  | [id] => inferInstanceAs (Decidable (n ≤ id + 1))
  | id :: id' :: ids =>
    have := decidableEndsWithLast n (id' :: ids)
    inferInstanceAs (Decidable (id + 1 < n ∧ EndsWithLast n (id' :: ids)))

instance (p : Presence) (ids : List UInt8) : Decidable (p.Covered ids) :=
  inferInstanceAs (Decidable (_ = _))

instance (p : Presence) : (cmd : PlayerCommand) → Decidable (cmd.Counted p)
  | .connect _ _ => inferInstanceAs (Decidable (_ ∧ _))
  | .playerUpdate _ _ => .isTrue trivial
  | .disconnect _ => inferInstanceAs (Decidable (_ ∈ _))
  | .playerList _ _ => inferInstanceAs (Decidable (_ ∧ _))

/-- Each of the commands is counted when its turn comes. -/
def Counted : Presence → List PlayerCommand → Prop
  | _, [] => True
  | p, cmd :: cmds => cmd.Counted p ∧ Counted (cmd.onPresence p) cmds

instance decidableCounted :
    (p : Presence) → (cmds : List PlayerCommand) → Decidable (Counted p cmds)
  | _, [] => .isTrue trivial
  | p, cmd :: cmds =>
    have := decidableCounted (cmd.onPresence p) cmds
    inferInstanceAs (Decidable (cmd.Counted p ∧ Counted (cmd.onPresence p) cmds))

/-- The rounds of the loop of `ParseMessage` take the commands from the message one by one, each
with all its bytes and no others. None of them makes the counter wrap, and after each of them it
is the number of the ids that are present. -/
def Exact (c : Crypto) (q2 : Fin N) : Presence → List PlayerCommand → World N → Prop
  | _, [], _ => True
  | p, cmd :: cmds, w =>
    ¬ cmd.Wraps (w.servers q2).playercount ∧
    ∃ w', (parseNext c q2).run w = .ok () w' ∧
      w'.msg.index = w.msg.index + cmd.wire.length ∧
      (w'.servers q2).playercount.toNat = (cmd.onPresence p).present.card ∧
      Exact c q2 (cmd.onPresence p) cmds w'

/-- The message of these commands is the one that is parsed. -/
def World.given (w : World N) (cmds : List PlayerCommand) : World N :=
  { w with msg := .received (playersWire cmds) }

/-- The commands of one message after the other are exact, whatever else happens between the
messages that leaves the counter of the server. -/
def ExactThroughout (c : Crypto) (q2 : Fin N) :
    Presence → List (List PlayerCommand) → World N → Prop
  | _, [], _ => True
  | p, cmds :: messages, w =>
    Exact c q2 p cmds (w.given cmds) ∧
    ∀ w' w'', (parseLoop c q2 parseRounds).run (w.given cmds) = .ok () w' →
      (w''.servers q2).playercount = (w'.servers q2).playercount →
      ExactThroughout c q2 (presentAfter p cmds) messages w''

namespace PlayerCommand

/-- What is read from the encoding of a command, if it is read to its end. -/
def command' : PlayerCommand → Command
  | connect clientId userinfo => .connect clientId userinfo.chars
  | playerUpdate clientId userinfo => .playerUpdate clientId userinfo.chars
  | disconnect clientId => .disconnect clientId
  | playerList entries _ =>
    .playerList entries.length.toUInt8 (entries.map fun e ↦ (e.1, e.2.chars))

/-- The command is read to its end. -/
def InStep : PlayerCommand → Prop
  | playerList entries _ => EndsWithLast entries.length.toUInt8 (entries.map Prod.fst)
  | _ => True

end PlayerCommand

/-- The loop of `ParsePlayerList` makes a round for each entry and then ends. -/
theorem drives_iff_endsWithLast {n i : UInt8} {entries : List (UInt8 × Text)} (hi : i < n)
    (hne : entries ≠ []) : Drives n i entries ↔ EndsWithLast n (entries.map Prod.fst) := by
  induction entries generalizing i with
  | nil => exact absurd rfl hne
  | cons e entries ih =>
    cases entries with
    | nil => exact (and_iff_right hi).trans UInt8.not_lt
    | cons e' entries =>
      refine (and_iff_right hi).trans ⟨fun h ↦ ?_, fun ⟨hlt, h⟩ ↦ ?_⟩
      · exact ⟨h.1, (ih h.1 (List.cons_ne_nil _ _)).mp h⟩
      · exact (ih hlt (List.cons_ne_nil _ _)).mpr h

section Entries

variable (entries : List (UInt8 × GameString))

private def entryTexts : List (UInt8 × Text) := entries.map fun e ↦ (e.1, e.2.text)

private theorem entryTexts_wire : entriesWire (entryTexts entries) =
    entries.flatMap fun e ↦ e.1 :: (e.2.chars ++ [0]) := by
  unfold entriesWire entryTexts
  rw [List.flatMap_map]
  congr 1
  funext e
  rw [e.2.text_wire]

private theorem entryTexts_value : entriesValue (entryTexts entries) =
    entries.map fun e ↦ (e.1, e.2.chars) := by
  simp only [entriesValue, entryTexts, List.map_map]
  apply List.map_congr_left
  intro e _
  simp only [Function.comp_apply, e.2.text_value]

private theorem entryTexts_ids : (entryTexts entries).map Prod.fst = entries.map Prod.fst := by
  simp only [entryTexts, List.map_map]
  rfl

private theorem count_toNat (few : entries.length ≤ 255) :
    entries.length.toUInt8.toNat = entries.length := by
  rw [Nat.toUInt8, UInt8.toNat_ofNat']
  exact Nat.mod_eq_of_lt (by omega)

private theorem drives_entryTexts_iff (few : entries.length ≤ 255) :
    Drives entries.length.toUInt8 0 (entryTexts entries) ↔
      EndsWithLast entries.length.toUInt8 (entries.map Prod.fst) := by
  cases entries with
  | nil => exact ⟨fun _ ↦ trivial, fun _ ↦ UInt8.not_lt.mpr (Nat.le_refl _)⟩
  | cons e entries =>
    rw [← entryTexts_ids]
    refine drives_iff_endsWithLast ?_ (List.cons_ne_nil _ _)
    rw [UInt8.lt_iff_toNat_lt, count_toNat _ few]
    exact Nat.succ_pos _

end Entries

namespace PlayerCommand

private theorem exists_frame {cmd : PlayerCommand} (h : cmd.InStep) :
    ∃ f : Frame, f.Fits ∧ f.wire = cmd.wire ∧ f.command' = cmd.command' := by
  cases cmd with
  | connect clientId userinfo =>
    refine ⟨.connect clientId userinfo.text, fun t ht ↦ ?_, ?_, ?_⟩
    · rw [List.mem_singleton.mp ht]
      exact userinfo.text_fits
    · exact congrArg (ClientCmd.connect.byte :: clientId :: ·) userinfo.text_wire
    · exact congrArg (Command.connect clientId) userinfo.text_value
  | playerUpdate clientId userinfo =>
    refine ⟨.playerUpdate clientId userinfo.text, fun t ht ↦ ?_, ?_, ?_⟩
    · rw [List.mem_singleton.mp ht]
      exact userinfo.text_fits
    · exact congrArg (ClientCmd.playerupdate.byte :: clientId :: ·) userinfo.text_wire
    · exact congrArg (Command.playerUpdate clientId) userinfo.text_value
  | disconnect clientId =>
    exact ⟨.disconnect clientId, fun t ht ↦ absurd ht List.not_mem_nil, rfl, rfl⟩
  | playerList entries few =>
    refine ⟨.playerList _ (entryTexts entries) ((drives_entryTexts_iff entries few).mpr h),
      fun t ht ↦ ?_, ?_, ?_⟩
    · obtain ⟨_, he, rfl⟩ := List.mem_map.mp ht
      obtain ⟨e, _, rfl⟩ := List.mem_map.mp he
      exact e.2.text_fits
    · exact congrArg (ClientCmd.playerlist.byte :: entries.length.toUInt8 :: ·)
        (entryTexts_wire entries)
    · exact congrArg (Command.playerList entries.length.toUInt8) (entryTexts_value entries)

-- Only a listing that the loop leaves behind its last entry is a complete command.
private theorem inStep_of_frame {cmd : PlayerCommand} {f : Frame} (h : f.wire = cmd.wire) :
    cmd.InStep := by
  cases cmd with
  | playerList entries few =>
    obtain ⟨hhead, hfields⟩ := List.cons.inj h
    cases f with
    | playerList count found drives =>
      obtain ⟨rfl, hentries⟩ := List.cons.inj hfields
      rw [← entryTexts_wire] at hentries
      rw [entriesWire_inj hentries] at drives
      exact (drives_entryTexts_iff entries few).mp drives
    | other cmd unhandled =>
      have hcmd : cmd = ClientCmd.playerlist.byte := hhead
      have hno := unhandled .playerlist (by rw [hcmd]; rfl)
      cases hno
    | _ => cases hhead
  | _ => trivial

private theorem exec_command (c : Crypto) (q2 : Fin N) (cmd : PlayerCommand) (w : World N) :
    ∃ w', (exec c q2 cmd.command').run w = .ok () w' := by
  have hname (userinfo : GameString) :
      infoValueForKey userinfo.chars nameKey = .ok (infoLookup nameKey userinfo.chars) :=
    infoValueForKey_eq nameKey (Nat.lt_of_le_of_lt userinfo.limit (by decide))
  have henter (clientId : UInt8) (userinfo : GameString) :
      ∃ w', (enterPlayer q2 clientId userinfo.chars).run w = .ok () w' := by
    unfold enterPlayer
    rw [hname]
    exact ⟨_, rfl⟩
  cases cmd with
  | connect clientId userinfo =>
    obtain ⟨w₁, h₁⟩ := henter clientId userinfo
    exact ⟨_, run_bind_of_ok h₁⟩
  | playerUpdate clientId userinfo => exact henter clientId userinfo
  | disconnect clientId => exact ⟨_, rfl⟩
  | playerList entries few =>
    refine (execEntries_returns_iff q2 0 _
      (w.updateServer q2 fun s ↦ { s with playercount := entries.length.toUInt8 })).mpr ?_
    intro e he
    obtain ⟨e, _, rfl⟩ := List.mem_map.mp he
    exact ⟨_, hname e.2⟩

end PlayerCommand

section Rounds

variable {c : Crypto} {q2 : Fin N} {cmd : PlayerCommand} {w w' : World N}

/-- A round of the loop at a command that is read to its end executes this command. -/
theorem round_ok (h : Stands w.msg cmd.wire) (hstep : cmd.InStep)
    (hrun : (parseNext c q2).run w = .ok () w') :
    w'.msg = w.msg.advance cmd.wire.length ∧
      (w'.servers q2).table = cmd.command'.onTable (w.servers q2).table := by
  obtain ⟨f, hfits, hwire, hcommand⟩ := PlayerCommand.exists_frame hstep
  obtain ⟨read, m, hread, hexec⟩ := (parseNext_splits c q2 w () w').mp hrun
  have hframe := reads_frame hfits w.msg (by rw [hwire]; exact h)
  have hread' : readCommand.run w.msg = .ok read m := hread
  rw [hframe, hwire, hcommand] at hread'
  cases hread'
  have hmsg := (detached_exec c q2 cmd.command').blind.keeps.ok hexec
  have htable := exec_table (w := inMsg.set (w.msg.advance cmd.wire.length) w) hexec
  exact ⟨hmsg, htable⟩

/-- A round of the loop takes exactly the bytes of a command if the command is read to its end,
and otherwise not. -/
theorem round_iff (c : Crypto) (q2 : Fin N) (h : Stands w.msg cmd.wire) :
    (∃ w', (parseNext c q2).run w = .ok () w' ∧
      w'.msg.index = w.msg.index + cmd.wire.length) ↔ cmd.InStep := by
  constructor
  · rintro ⟨w', hrun, hindex⟩
    obtain ⟨read, m, hread, hexec⟩ := (parseNext_splits c q2 w () w').mp hrun
    obtain ⟨_, ⟨f, _, rfl, _⟩, hstands, hm⟩ := (decodes_command w.msg read m).mp hread
    have hmsg : w'.msg = m := (detached_exec c q2 read).blind.keeps.ok hexec
    have hlength : f.wire.length = cmd.wire.length := by
      rw [hmsg, hm, MsgBuffer.advance_index] at hindex
      exact Nat.add_left_cancel hindex
    apply PlayerCommand.inStep_of_frame (f := f)
    rw [← hstands.1, hlength]
    exact h.1
  · intro hstep
    obtain ⟨f, hfits, hwire, hcommand⟩ := PlayerCommand.exists_frame hstep
    have hread := reads_frame hfits w.msg (by rw [hwire]; exact h)
    rw [hwire, hcommand] at hread
    obtain ⟨w', hexec⟩ := PlayerCommand.exec_command c q2 cmd
      { w with msg := w.msg.advance cmd.wire.length }
    have hrun := (parseNext_splits c q2 w () w').mpr ⟨_, _, hread, hexec⟩
    refine ⟨w', hrun, ?_⟩
    rw [(round_ok h hstep hrun).1, MsgBuffer.advance_index]

end Rounds

/-- A listing covers who is present exactly if its count is their number. -/
theorem covered_iff (p : Presence) (ids : List UInt8) :
    p.Covered ids ↔ ids.length = (p.connected ∪ ids.toFinset).card := by
  have hle := List.toFinset_card_le ids
  have hunion := Finset.card_sdiff_add_card p.connected ids.toFinset
  unfold Presence.Covered
  omega

private theorem present_connect (p : Presence) (clientId : UInt8) (userinfo : GameString) :
    ((PlayerCommand.connect clientId userinfo).onPresence p).present =
      insert clientId p.present := Finset.insert_union _ _ _

private theorem present_disconnect (p : Presence) (clientId : UInt8) :
    ((PlayerCommand.disconnect clientId).onPresence p).present = p.present.erase clientId :=
  (Finset.erase_union_distrib _ _ _).symm

private theorem toNat_add_one (n : UInt8) : (n + 1).toNat = (n.toNat + 1) % 256 := by
  rw [UInt8.toNat_add]
  rfl

private theorem toNat_sub_one (n : UInt8) : (n - 1).toNat = (n.toNat + 255) % 256 := by
  rw [UInt8.toNat_sub, Nat.add_comm]
  rfl

/-- The counter that was exact stays so exactly when the command, read to its end, is counted. -/
theorem counted_iff {p : Presence} {t : Table} (h : t.playercount.toNat = p.present.card)
    {cmd : PlayerCommand} (hstep : cmd.InStep) :
    (cmd.command'.onTable t).playercount.toNat = (cmd.onPresence p).present.card ↔
      cmd.Counted p := by
  have hlt := t.playercount.toNat_lt
  cases cmd with
  | connect clientId userinfo =>
    rw [present_connect]
    change (t.playercount + 1).toNat = _ ↔ clientId ∉ p.present ∧ p.present.card < 255
    rw [toNat_add_one, h]
    by_cases hmem : clientId ∈ p.present
    · rw [Finset.insert_eq_of_mem hmem]
      simp only [hmem, not_true_eq_false, false_and, iff_false]
      omega
    · rw [Finset.card_insert_of_notMem hmem]
      simp only [hmem, not_false_eq_true, true_and]
      omega
  | playerUpdate clientId userinfo => exact ⟨fun _ ↦ trivial, fun _ ↦ h⟩
  | disconnect clientId =>
    rw [present_disconnect]
    change (t.playercount - 1).toNat = _ ↔ clientId ∈ p.present
    rw [toNat_sub_one, h]
    by_cases hmem : clientId ∈ p.present
    · have hpos := Finset.card_pos.mpr ⟨clientId, hmem⟩
      rw [Finset.card_erase_of_mem hmem]
      simp only [hmem, iff_true]
      omega
    · rw [Finset.erase_eq_of_notMem hmem]
      simp only [hmem, iff_false]
      omega
  | playerList entries few =>
    have hcount : entries.length.toUInt8.toNat = (entries.map Prod.fst).length := by
      rw [count_toNat _ few, List.length_map]
    refine Iff.trans ?_ (and_iff_right hstep).symm
    rw [covered_iff, ← hcount]
    exact Iff.rfl

/-- A command that is counted does not make the counter wrap. -/
theorem not_wraps_of_counted {p : Presence} {n : UInt8} (h : n.toNat = p.present.card)
    {cmd : PlayerCommand} (hcmd : cmd.Counted p) : ¬ cmd.Wraps n := by
  intro hwrap
  cases cmd with
  | connect clientId userinfo =>
    have hn : n = 255 := hwrap
    have hlt := hcmd.2
    rw [← h, hn] at hlt
    exact absurd hlt (by decide)
  | disconnect clientId =>
    have hn : n = 0 := hwrap
    have hpos := Finset.card_pos.mpr ⟨clientId, hcmd⟩
    rw [← h, hn] at hpos
    exact absurd hpos (by decide)
  | _ => exact hwrap.elim

private theorem inStep_of_counted {p : Presence} {cmd : PlayerCommand} (h : cmd.Counted p) :
    cmd.InStep := by
  cases cmd with
  | playerList entries few => exact h.1
  | _ => trivial

/-- A counter that is exact before the commands of a message is so after each of them exactly
when each of them is counted. -/
theorem exact_iff (c : Crypto) (q2 : Fin N) {p : Presence} {cmds : List PlayerCommand}
    {w : World N} (hstart : (w.servers q2).playercount.toNat = p.present.card)
    (h : Stands w.msg (playersWire cmds)) : Exact c q2 p cmds w ↔ Counted p cmds := by
  induction cmds generalizing p w with
  | nil => exact Iff.rfl
  | cons cmd cmds ih =>
    obtain ⟨hcmd, hcmds⟩ := stands_append.mp h
    have hnext {w' : World N} (hstep : cmd.InStep) (hrun : (parseNext c q2).run w = .ok () w') :
        Stands w'.msg (playersWire cmds) ∧
          ((w'.servers q2).playercount.toNat = (cmd.onPresence p).present.card ↔
            cmd.Counted p) := by
      obtain ⟨hmsg, htable⟩ := round_ok hcmd hstep hrun
      have hcount := congrArg Table.playercount htable
      refine ⟨by rw [hmsg]; exact hcmds, ?_⟩
      rw [← counted_iff (t := (w.servers q2).table) hstart hstep, ← hcount]
      rfl
    constructor
    · rintro ⟨_, w', hrun, hindex, hcount, hrest⟩
      obtain ⟨hstands, hiff⟩ := hnext ((round_iff c q2 hcmd).mp ⟨w', hrun, hindex⟩) hrun
      exact ⟨hiff.mp hcount, (ih hcount hstands).mp hrest⟩
    · rintro ⟨hcounted, hrest⟩
      have hstep := inStep_of_counted hcounted
      obtain ⟨w', hrun, hindex⟩ := (round_iff c q2 hcmd).mpr hstep
      obtain ⟨hstands, hiff⟩ := hnext hstep hrun
      have hcount := hiff.mpr hcounted
      exact ⟨not_wraps_of_counted hstart hcounted, w', hrun, hindex, hcount,
        (ih hcount hstands).mpr hrest⟩

/-- The loop of `ParseMessage` takes a message of commands that are counted to its end, and
leaves the counter exact. -/
theorem parseLoop_counted (c : Crypto) (q2 : Fin N) {p : Presence} {cmds : List PlayerCommand}
    {n : Nat} {w : World N} (hstart : (w.servers q2).playercount.toNat = p.present.card)
    (h : Stands w.msg (playersWire cmds))
    (hend : w.msg.index + (playersWire cmds).length = w.msg.length)
    (hsize : w.msg.length ≤ msgSize) (hn : cmds.length ≤ n) (hcounted : Counted p cmds) :
    ∃ w', (parseLoop c q2 n).run w = .ok () w' ∧
      (w'.servers q2).playercount.toNat = (presentAfter p cmds).present.card := by
  induction cmds generalizing p n w with
  | nil =>
    refine ⟨w, ?_, hstart⟩
    cases n with
    | zero => rfl
    | succ n =>
      have hread : w.msg.unread = false := by
        unfold MsgBuffer.unread
        rw [decide_eq_false (p := w.msg.index < w.msg.length)
          (by rw [← hend]; exact Nat.lt_irrefl _), Bool.false_and]
      unfold parseLoop
      rw [run_bind_of_ok (EStateM.run_get w), if_neg (by simp [hread])]
      rfl
  | cons cmd cmds ih =>
    obtain ⟨n, rfl⟩ := Nat.exists_eq_add_one_of_ne_zero (Nat.ne_of_gt
      (Nat.lt_of_lt_of_le (Nat.succ_pos _) hn))
    obtain ⟨hcmd, hcmds⟩ := stands_append.mp h
    have hlength : (playersWire (cmd :: cmds)).length =
        cmd.wire.length + (playersWire cmds).length := List.length_append
    have hpos : 0 < cmd.wire.length := by cases cmd <;> exact Nat.succ_pos _
    have hstep := inStep_of_counted hcounted.1
    obtain ⟨w₁, hrun, _⟩ := (round_iff c q2 hcmd).mpr hstep
    obtain ⟨hmsg, htable⟩ := round_ok hcmd hstep hrun
    have hcount : (w₁.servers q2).playercount.toNat = (cmd.onPresence p).present.card := by
      have hone := (counted_iff (t := (w.servers q2).table) hstart hstep).mpr hcounted.1
      rw [← htable] at hone
      exact hone
    obtain ⟨w', hloop, hlast⟩ := ih (n := n) (w := w₁) hcount (by rw [hmsg]; exact hcmds)
      (by rw [hmsg, MsgBuffer.advance_index, MsgBuffer.advance_length]; omega)
      (by rw [hmsg, MsgBuffer.advance_length]; exact hsize) (Nat.le_of_succ_le_succ hn)
      hcounted.2
    have hunread : w.msg.unread = true := by
      unfold MsgBuffer.unread
      rw [decide_eq_true (p := w.msg.index < w.msg.length) (by omega),
        decide_eq_true (p := w.msg.index ≤ msgSize) (by omega), Bool.and_true]
    refine ⟨w', ?_, hlast⟩
    unfold parseLoop
    rw [run_bind_of_ok (EStateM.run_get w), if_pos hunread, run_bind_of_ok hrun]
    exact hloop

private theorem counted_append {p : Presence} {cmds cmds' : List PlayerCommand} :
    Counted p (cmds ++ cmds') ↔ Counted p cmds ∧ Counted (presentAfter p cmds) cmds' := by
  induction cmds generalizing p with
  | nil => exact (and_iff_right trivial).symm
  | cons cmd cmds ih => exact (and_congr_right fun _ ↦ ih).trans and_assoc.symm

private theorem playersWire_length_le (cmds : List PlayerCommand) :
    cmds.length ≤ (playersWire cmds).length := by
  induction cmds with
  | nil => exact Nat.le_refl _
  | cons cmd cmds ih =>
    have hlength : (playersWire (cmd :: cmds)).length =
        cmd.wire.length + (playersWire cmds).length := List.length_append
    have hpos : 0 < cmd.wire.length := by cases cmd <;> exact Nat.succ_pos _
    rw [hlength, List.length_cons]
    omega

private def sampleName : GameString :=
  ⟨⟨ascii "\\name\\Bob", by decide, by decide, by simp [ascii]⟩, by decide⟩

-- Two players are listed, and in the next message a third one connects and the first one leaves.
private def sampleReported : List (List PlayerCommand) :=
  [[.playerList [(0, sampleName), (1, sampleName)] (by decide)],
    [.connect 2 sampleName, .playerUpdate 1 sampleName, .disconnect 0]]

/-- The loop stops behind the first entry of this listing. -/
example : ¬ Counted .none [.playerList [(1, sampleName), (3, sampleName)] (by decide)] :=
  by decide

end Q2Admin
