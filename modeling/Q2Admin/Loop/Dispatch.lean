import Q2Admin.Command.Frame
import Q2Admin.Command.Table
import Q2Admin.Loop.PollTable
import Q2Admin.Msg.RoundTrip

/-!
# Dispatch of game commands

Library `Q2Admin.Loop`. The commands that a game server sends about its game, and what
they mean for the table of the server: a slot holds what the last command for it says.
On whole messages of such commands `ParseMessage` refines this meaning.
-/

namespace Q2Admin

open Exec

variable {N : Nat} {α β : Type}

/-- The strings of game commands: 1 to 511 seven-bit characters. -/
structure GameString extends PlainString where
  limit : chars.length ≤ 511

/-- A command about the game. -/
inductive GameCommand
  | connect (clientId : UInt8) (userinfo : GameString)
  | playerUpdate (clientId : UInt8) (userinfo : GameString)
  | disconnect (clientId : UInt8)
  | map (name : GameString)
  | print (level : UInt8) (text : GameString)
  | ping

namespace GameCommand

/-- The encoding of a command. -/
def wire : GameCommand → List UInt8
  | connect clientId userinfo => ClientCmd.connect.byte :: clientId :: (userinfo.chars ++ [0])
  | playerUpdate clientId userinfo =>
    ClientCmd.playerupdate.byte :: clientId :: (userinfo.chars ++ [0])
  | disconnect clientId => [ClientCmd.disconnect.byte, clientId]
  | map name => ClientCmd.map.byte :: (name.chars ++ [0])
  | print level text => ClientCmd.print.byte :: level :: (text.chars ++ [0])
  | ping => [ClientCmd.ping.byte]

/-- What the command says about a slot of the player table. -/
def entry (slot : UInt8) : GameCommand → Option Player
  | connect clientId userinfo | playerUpdate clientId userinfo =>
    if clientId = slot then
      some ⟨clientId, strncpy 15 (infoLookup nameKey userinfo.chars), strncpy 512 userinfo.chars⟩
    else none
  | disconnect clientId => if clientId = slot then some Player.zero else none
  | _ => none

/-- What the command says about the map. -/
def mapName : GameCommand → Option (Field 20)
  | map name => some (strncpy 20 name.chars)
  | _ => none

/-- Which kind a command is of. -/
def isConnect : GameCommand → Bool
  | connect _ _ => true
  | _ => false

/-- The command takes a player off. -/
def isDisconnect : GameCommand → Bool
  | disconnect _ => true
  | _ => false

/-- The command asks for a sign of life. -/
def isPing : GameCommand → Bool
  | ping => true
  | _ => false

end GameCommand

/-- The table after commands: a slot and the map are what was said last about them, and the
number of players counts modulo 256. -/
def Table.after (t : Table) (gs : List GameCommand) : Table where
  players slot := (gs.filterMap (GameCommand.entry slot)).getLast?.getD (t.players slot)
  playercount := t.playercount + UInt8.ofNat (gs.countP GameCommand.isConnect) -
    UInt8.ofNat (gs.countP GameCommand.isDisconnect)
  map := (gs.filterMap GameCommand.mapName).getLast?.getD t.map

namespace GameCommand

/-- The frame of a command. -/
def frame : GameCommand → Frame
  | connect clientId userinfo => .connect clientId userinfo.text
  | playerUpdate clientId userinfo => .playerUpdate clientId userinfo.text
  | disconnect clientId => .disconnect clientId
  | map name => .map name.text
  | print level text => .print level text.text
  | ping => .ping

/-- What is read from it. -/
def command' : GameCommand → Command
  | connect clientId userinfo => .connect clientId userinfo.chars
  | playerUpdate clientId userinfo => .playerUpdate clientId userinfo.chars
  | disconnect clientId => .disconnect clientId
  | map name => .map name.chars
  | print level text => .print level text.chars
  | ping => .ping

private theorem frame_wire (g : GameCommand) : g.frame.wire = g.wire := by
  cases g with
  | connect clientId userinfo =>
    exact congrArg (ClientCmd.connect.byte :: clientId :: ·) userinfo.text_wire
  | playerUpdate clientId userinfo =>
    exact congrArg (ClientCmd.playerupdate.byte :: clientId :: ·) userinfo.text_wire
  | disconnect clientId => rfl
  | map name => exact congrArg (ClientCmd.map.byte :: ·) name.text_wire
  | print level text => exact congrArg (ClientCmd.print.byte :: level :: ·) text.text_wire
  | ping => rfl

private theorem frame_command (g : GameCommand) : g.frame.command' = g.command' := by
  cases g with
  | connect clientId userinfo => exact congrArg (Command.connect clientId) userinfo.text_value
  | playerUpdate clientId userinfo =>
    exact congrArg (Command.playerUpdate clientId) userinfo.text_value
  | disconnect clientId => rfl
  | map name => exact congrArg Command.map name.text_value
  | print level text => exact congrArg (Command.print level) text.text_value
  | ping => rfl

private theorem frame_fits (g : GameCommand) : g.frame.Fits := by
  intro t ht
  cases g with
  | connect clientId userinfo =>
    rw [List.mem_singleton.mp ht]
    exact userinfo.text_fits
  | playerUpdate clientId userinfo =>
    rw [List.mem_singleton.mp ht]
    exact userinfo.text_fits
  | map name =>
    rw [List.mem_singleton.mp ht]
    exact name.text_fits
  | print level text =>
    rw [List.mem_singleton.mp ht]
    exact text.text_fits
  | disconnect clientId => exact (List.not_mem_nil ht).elim
  | ping => exact (List.not_mem_nil ht).elim

end GameCommand

private theorem framesWire_game (gs : List GameCommand) :
    framesWire (gs.map GameCommand.frame) = gs.flatMap GameCommand.wire := by
  unfold framesWire
  rw [List.flatMap_map]
  exact congrArg gs.flatMap (funext GameCommand.frame_wire)

/-- The name that is copied is found by the lookup. -/
theorem nameOf_eq (s : GameString) : nameOf s.chars = infoLookup nameKey s.chars := by
  have hlimit : s.chars.length < infoSize := Nat.lt_of_le_of_lt s.limit (by decide)
  unfold nameOf
  rw [infoValueForKey_eq nameKey hlimit]

private theorem getLast?_getD_cons (a b : α) (l : List α) :
    (a :: l).getLast?.getD b = l.getLast?.getD a := by
  rw [List.getLast?_cons, Option.getD_some]

private theorem entry_getD (g : GameCommand) (t : Table) (slot : UInt8) :
    (g.entry slot).getD (t.players slot) = (g.command'.onTable t).players slot := by
  have hslot (clientId : UInt8) (p : Player) :
      (if clientId = slot then some p else none).getD (t.players slot) =
        Function.update t.players clientId p slot := by
    by_cases hs : clientId = slot
    · rw [if_pos hs, hs, Function.update_self]
      rfl
    · rw [if_neg hs, Function.update_of_ne (Ne.symm hs)]
      rfl
  have hentered (clientId : UInt8) (userinfo : GameString) :
      Player.entered clientId userinfo.chars =
        ⟨clientId, strncpy 15 (infoLookup nameKey userinfo.chars),
          strncpy 512 userinfo.chars⟩ := by
    unfold Player.entered Player.make
    rw [nameOf_eq]
  cases g with
  | connect clientId userinfo =>
    apply (hslot clientId _).trans
    rw [← hentered]
    rfl
  | playerUpdate clientId userinfo =>
    apply (hslot clientId _).trans
    rw [← hentered]
    rfl
  | disconnect clientId => exact hslot clientId _
  | map name => rfl
  | print level text => rfl
  | ping => rfl

private theorem count_connect (p c d : UInt8) : p + (c + 1) - d = p + 1 + c - d := by grind

private theorem count_disconnect (p c d : UInt8) : p + c - (d + 1) = p - 1 + c - d := by grind

private theorem after_cons (g : GameCommand) (gs : List GameCommand) (t : Table) :
    t.after (g :: gs) = (g.command'.onTable t).after gs := by
  have hplayers (slot : UInt8) : ((g :: gs).filterMap (GameCommand.entry slot)).getLast?.getD
      (t.players slot) = (gs.filterMap (GameCommand.entry slot)).getLast?.getD
        ((g.command'.onTable t).players slot) := by
    rw [← entry_getD, List.filterMap_cons]
    cases g.entry slot with
    | none => rfl
    | some p => exact getLast?_getD_cons _ _ _
  have hmap : ((g :: gs).filterMap GameCommand.mapName).getLast?.getD t.map =
      (gs.filterMap GameCommand.mapName).getLast?.getD (g.command'.onTable t).map := by
    cases g with
    | map name => exact getLast?_getD_cons _ _ _
    | _ => rfl
  have hcount : t.playercount + UInt8.ofNat ((g :: gs).countP GameCommand.isConnect) -
      UInt8.ofNat ((g :: gs).countP GameCommand.isDisconnect) =
        (g.command'.onTable t).playercount + UInt8.ofNat (gs.countP GameCommand.isConnect) -
          UInt8.ofNat (gs.countP GameCommand.isDisconnect) := by
    cases g with
    | connect clientId userinfo =>
      rw [List.countP_cons_of_pos rfl, UInt8.ofNat_add, List.countP_cons_of_neg Bool.false_ne_true]
      exact count_connect _ _ _
    | disconnect clientId =>
      rw [List.countP_cons_of_neg Bool.false_ne_true, List.countP_cons_of_pos rfl, UInt8.ofNat_add]
      exact count_disconnect _ _ _
    | _ => rfl
  unfold Table.after
  rw [hcount, hmap]
  exact congrArg (fun p ↦ Table.mk p _ _) (funext hplayers)

private theorem foldl_onTable (gs : List GameCommand) (t : Table) :
    (gs.map GameCommand.command').foldl (fun t cmd ↦ cmd.onTable t) t = t.after gs := by
  induction gs generalizing t with
  | nil =>
    unfold Table.after
    simp
  | cons g gs ih =>
    rw [after_cons, ← ih]
    rfl

/-- The server is connected without encryption, and nothing waits to be sent to it. -/
structure World.Idle (w : World N) (q2 : Fin N) : Prop where
  connected : (w.servers q2).connected = true
  encrypted : (w.servers q2).connection.encrypted = false
  buffer : (w.servers q2).msg = .zero

/-- The traffic of an idle server is plain. -/
theorem World.Idle.secure {w : World N} {q2 : Fin N} (h : w.Idle q2) :
    (w.servers q2).secure = false := by
  unfold Q2Server.secure
  rw [h.encrypted, Bool.false_and]

-- What a game command leaves as it is, and that it sends a PONG if it is a PING.
private structure GameStep (q2 : Fin N) (g : GameCommand) (w w' : World N) : Prop where
  idle : w'.Idle q2
  wire : w'.wireOf q2 = w.wireOf q2
  sends : w'.sends =
    (if g.isPing then [.sent (w.wireOf q2) [scmdPong] [scmdPong]] else []) ++ w.sends

private theorem served_update {q2 : Fin N} {g : GameCommand} {w : World N} {f : Q2Server → Q2Server}
    (h : w.Idle q2) (hg : g.isPing = false)
    (hf : ∀ s, (f s).connected = s.connected ∧ (f s).connection = s.connection ∧
      (f s).msg = s.msg ∧ (f s).index = s.index) : GameStep q2 g w (w.updateServer q2 f) := by
  obtain ⟨hc, hconn, hm, hi⟩ := hf (w.servers q2)
  refine ⟨⟨?_, ?_, ?_⟩, ?_, ?_⟩
  · rw [World.updateServer_self, hc]
    exact h.connected
  · rw [World.updateServer_self, hconn]
    exact h.encrypted
  · rw [World.updateServer_self, hm]
    exact h.buffer
  · unfold World.wireOf
    rw [World.updateServer_self, hi]
    rfl
  · rw [hg]
    rfl

private theorem enter_run (q2 : Fin N) (clientId : UInt8) (userinfo : GameString) (w : World N) :
    ∃ name, (enterPlayer q2 clientId userinfo.chars).run w =
      .ok () (w.updateServer q2 fun s ↦
        s.setPlayer clientId (Player.make clientId name userinfo.chars)) := by
  have hlimit : userinfo.chars.length < infoSize := Nat.lt_of_le_of_lt userinfo.limit (by decide)
  refine ⟨infoLookup nameKey userinfo.chars, ?_⟩
  unfold enterPlayer
  rw [infoValueForKey_eq nameKey hlimit]
  rfl

private theorem pong_run {c : Crypto} {q2 : Fin N} {w : World N} (h : w.Idle q2) :
    ∃ w', (pong c q2).run w = .ok () w' ∧ GameStep q2 .ping w w' := by
  have hm : (w.servers q2).msg = .ofBytes [] := h.buffer
  obtain ⟨w₁, hw₁⟩ : ∃ w₁, w₁ = w.updateServer q2 fun s ↦
    { s with msg := .ofBytes ([] ++ [scmdPong]) } := ⟨_, rfl⟩
  obtain ⟨w₂, hw₂⟩ : ∃ w₂, w₂ = w₁.updateServer q2 fun s ↦ { s with connection :=
    { s.connection with pingCount := s.connection.pingCount + 1 } } := ⟨_, rfl⟩
  have h₁ : (onOut q2 (msgWriteByte scmdPong)).run w = .ok () w₁ := by
    rw [hw₁]
    exact onOut_run (writes_byte scmdPong) hm (by decide)
  have h₂ : (modifyServer q2 fun s ↦ { s with connection :=
      { s.connection with pingCount := s.connection.pingCount + 1 } }).run w₁ = .ok () w₂ := by
    rw [hw₂]
    rfl
  have hs₁ : w₁.servers q2 = { w.servers q2 with msg := .ofBytes ([] ++ [scmdPong]) } := by
    rw [hw₁, World.updateServer_self]
  have hs₂ : w₂.servers q2 = { w₁.servers q2 with connection :=
      { (w₁.servers q2).connection with
        pingCount := (w₁.servers q2).connection.pingCount + 1 } } := by
    rw [hw₂, World.updateServer_self]
  have hc : (w₂.servers q2).connected = true := by
    rw [hs₂, hs₁]
    exact h.connected
  have he : (w₂.servers q2).connection.encrypted = false := by
    rw [hs₂, hs₁]
    exact h.encrypted
  have hbuf : (w₂.servers q2).msg = .ofBytes [scmdPong] := by
    rw [hs₂, hs₁]
    rfl
  have hfd : w₂.wireOf q2 = w.wireOf q2 := by
    unfold World.wireOf
    rw [hs₂, hs₁, hw₂, hw₁]
    rfl
  have hsec : (w₂.servers q2).secure = false := by
    unfold Q2Server.secure
    rw [he, Bool.false_and]
  have h₃ := sendBuffer_run c hc hsec (by rw [hbuf]; decide)
  refine ⟨_, by unfold pong; rw [run_bind_of_ok h₁, run_bind_of_ok h₂, h₃], ⟨?_, ?_, ?_⟩, ?_, ?_⟩
  · rw [World.updateServer_self]
    exact hc
  · rw [World.updateServer_self]
    exact he
  · rw [World.updateServer_self]
  · unfold World.wireOf
    rw [World.updateServer_self]
    exact hfd
  · have hsends : w₂.sends = w.sends := by
      rw [hw₂, hw₁]
      rfl
    rw [← hfd, ← hsends, hbuf]
    rfl

private theorem exec_game (c : Crypto) {q2 : Fin N} {w : World N} (h : w.Idle q2)
    (g : GameCommand) : ∃ w', (exec c q2 g.command').run w = .ok () w' ∧ GameStep q2 g w w' := by
  have hkeep : ∀ g : GameCommand, g.isPing = false → GameStep q2 g w w := fun g hg ↦
    ⟨h, rfl, by rw [hg]; rfl⟩
  cases g with
  | connect clientId userinfo =>
    obtain ⟨name, hrun⟩ := enter_run q2 clientId userinfo w
    have hs := served_update (g := .connect clientId userinfo) h rfl
      (f := fun s ↦ s.setPlayer clientId (Player.make clientId name userinfo.chars))
      fun _ ↦ ⟨rfl, rfl, rfl, rfl⟩
    have hs' := served_update (g := .connect clientId userinfo) hs.idle rfl
      (f := fun s ↦ { s with playercount := s.playercount + 1 }) fun _ ↦ ⟨rfl, rfl, rfl, rfl⟩
    exact ⟨_, run_bind_of_ok hrun, hs'.idle, hs'.wire.trans hs.wire, hs'.sends.trans hs.sends⟩
  | playerUpdate clientId userinfo =>
    obtain ⟨name, hrun⟩ := enter_run q2 clientId userinfo w
    exact ⟨_, hrun, served_update h rfl fun _ ↦ ⟨rfl, rfl, rfl, rfl⟩⟩
  | disconnect clientId => exact ⟨_, rfl, served_update h rfl fun _ ↦ ⟨rfl, rfl, rfl, rfl⟩⟩
  | map name => exact ⟨_, rfl, served_update h rfl fun _ ↦ ⟨rfl, rfl, rfl, rfl⟩⟩
  | print level text => exact ⟨w, rfl, hkeep _ rfl⟩
  | ping => exact pong_run h

private theorem execAll_game (c : Crypto) {q2 : Fin N} (gs : List GameCommand) {w : World N}
    (h : w.Idle q2) :
    ∃ w', (forM (gs.map GameCommand.command') (exec c q2)).run w = .ok () w' ∧
      w'.sends = List.replicate (gs.countP GameCommand.isPing)
        (.sent (w.wireOf q2) [scmdPong] [scmdPong]) ++ w.sends := by
  induction gs generalizing w with
  | nil => exact ⟨w, rfl, rfl⟩
  | cons g gs ih =>
    obtain ⟨w₁, h₁, hgame⟩ := exec_game c h g
    obtain ⟨w', h', hsends⟩ := ih hgame.idle
    refine ⟨w', ?_, ?_⟩
    · rw [List.map_cons, List.forM_cons, run_bind_of_ok h₁, h']
    · rw [hsends, hgame.sends, hgame.wire, ← List.append_assoc]
      congr 1
      by_cases hp : g.isPing = true
      · rw [List.countP_cons_of_pos hp, if_pos hp, List.replicate_succ']
      · rw [List.countP_cons_of_neg hp, if_neg hp, List.append_nil]

/-- A message of game commands is parsed to its end; the table of the server is then what the
commands say, and as many PONGs have been sent as there were PINGs. -/
theorem dispatch_refines_table (c : Crypto) (q2 : Fin N) (w : World N) (gs : List GameCommand)
    (hidle : w.Idle q2) (hlen : (gs.flatMap GameCommand.wire).length ≤ msgSize)
    (hmsg : w.msg = .received (gs.flatMap GameCommand.wire)) :
    ∃ w', (parseMessage c q2).run w = .ok () w' ∧ w'.msg.index = w'.msg.length ∧
      (w'.servers q2).table = (w.servers q2).table.after gs ∧
      w'.sends = List.replicate (gs.countP GameCommand.isPing)
        (.sent (w.wireOf q2) [scmdPong] [scmdPong]) ++ w.sends := by
  let fs := gs.map GameCommand.frame
  have hwire : framesWire fs = gs.flatMap GameCommand.wire := framesWire_game gs
  have hcmds : fs.map Frame.command' = gs.map GameCommand.command' := by
    rw [List.map_map]
    exact congrArg gs.map (funext GameCommand.frame_command)
  have hfit : ∀ f ∈ fs, f.Fits := fun f hf ↦ by
    obtain ⟨g, _, rfl⟩ := List.mem_map.mp hf
    exact g.frame_fits
  have hstands : Stands w.msg (framesWire fs) := by
    rw [hwire, hmsg]
    exact stands_of_drop (hlen.trans (Nat.le_add_right _ _)) (List.append_nil _).symm
  have hend : w.msg.index + (framesWire fs).length = w.msg.length := by
    rw [hwire, hmsg]
    exact Nat.zero_add _
  have hsize : w.msg.length ≤ msgSize := by
    rw [hmsg]
    exact hlen
  have hcount : fs.length ≤ parseRounds := by
    have hle : fs.length ≤ (framesWire fs).length := framesWire_length_le fs
    unfold parseRounds
    omega
  have hread := readCommands_frames hfit hcount hstands hend hsize
  rw [hcmds] at hread
  obtain ⟨w', hexec, hsends⟩ := execAll_game c gs
    (w := { w with msg := w.msg.advance (framesWire fs).length })
    ⟨hidle.connected, hidle.encrypted, hidle.buffer⟩
  have hkept : w'.msg = w.msg.advance (framesWire fs).length :=
    (detached_forM fun cmd ↦ detached_exec c q2 cmd).blind.keeps.ok hexec
  refine ⟨w', parseMessage_of_plain hidle.secure hread hexec, ?_, ?_, hsends⟩
  · rw [hkept, w.msg.advance_index, w.msg.advance_length, hend]
  · rw [execAll_table hexec, foldl_onTable]

private def sampleCommands : List GameCommand :=
  [.connect 3 ⟨⟨ascii "\\name\\Ann", by decide, by decide, by simp [ascii]⟩, by decide⟩, .ping,
    .map ⟨⟨ascii "q2dm1", by decide, by decide, by simp [ascii]⟩, by decide⟩]

/-- A player connects, and stands in the table by name. -/
theorem dispatch_refines_table_sample :
    ∃ w w' : World 1, (parseMessage Crypto.clear 0).run w = .ok () w' ∧
      (w'.servers 0).playercount = 1 ∧ ((w'.servers 0).players 3).nameStr = ascii "Ann" := by
  let w : World 1 :=
    { sampleStart.updateServer 0 fun s ↦ { s with connected := true } with
      msg := .received (sampleCommands.flatMap GameCommand.wire) }
  obtain ⟨w', hrun, _, htable, _⟩ := dispatch_refines_table Crypto.clear 0 w sampleCommands
    ⟨rfl, rfl, rfl⟩ (by decide) rfl
  have hcount : (w'.servers 0).playercount =
      ((w.servers 0).table.after sampleCommands).playercount := congrArg Table.playercount htable
  have hplayer : (w'.servers 0).players 3 = ((w.servers 0).table.after sampleCommands).players 3 :=
    congrArg (fun t ↦ Table.players t 3) htable
  refine ⟨w, w', hrun, ?_, ?_⟩
  · rw [hcount]
    decide +kernel
  · rw [hplayer]
    decide +kernel

end Q2Admin
