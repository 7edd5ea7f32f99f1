import Q2Admin.Command.Table
import Q2Admin.Session.Sends

/-!
# What others see of a server

Library `Q2Admin.Session`. The table and the count of pings are what outlives the handlers of
a session. `exec_sight` says what a command makes of them, and `leavesNothing_iff` for which
sequences of commands nothing is left in the end.
-/

namespace Q2Admin

open Exec

variable {N : Nat}

/-- The table of a server and the count of its pings. -/
structure Sight where
  table : Table
  pings : UInt32

/-- The part of a record that is seen. -/
def Q2Server.sight (s : Q2Server) : Sight := ⟨s.table, s.connection.pingCount⟩

/-- No player, no map and no ping. -/
def Sight.fresh : Sight := ⟨⟨fun _ ↦ Player.zero, 0, .zero 20⟩, 0⟩

/-- What a command means for what is seen of its server. -/
def Command.onSight : Command → Sight → Sight
  | .ping, v => { v with pings := v.pings + 1 }
  | cmd, v => { v with table := cmd.onTable v.table }

/-- What is seen after a sequence of commands. -/
def Sight.after (v : Sight) (cmds : List Command) : Sight :=
  cmds.foldl (fun v cmd ↦ cmd.onSight v) v

section Handlers

variable {c : Crypto} {q2 : Fin N}

private theorem keeps_sight_assign (s q2 : Fin N) {f : Q2Server → Q2Server}
    (hf : ∀ r, (f r).sight = r.sight) :
    Keeps (fun w ↦ (w.servers s).sight) (modifyServer q2 f) := keeps_modifyServer q2 s hf

private theorem keeps_sight_onOut {α : Type} (s q2 : Fin N) (x : BufM α) :
    Keeps (fun w ↦ (w.servers s).sight) (onOut q2 x) :=
  keeps_zoom fun m w ↦ keeps_sight_assign s q2 (f := fun r ↦ { r with msg := m }) (fun _ ↦ rfl) w

private theorem keeps_sight_clientText (s q2 : Fin N) (cl type : UInt8) (text : CharPtr) :
    Keeps (fun w ↦ (w.servers s).sight) (clientText q2 cl type text) :=
  keeps_bind (fun _ ↦ rfl) fun _ ↦ keeps_sight_onOut s q2 _

private theorem keeps_sight_va (s : Fin N) (format : List Piece) :
    Keeps (fun w ↦ (w.servers s).sight) (va format) := keeps_va (fun _ _ _ ↦ rfl) format

private theorem keeps_sight_sendBuffer (c : Crypto) (s q2 : Fin N) :
    Keeps (fun w ↦ (w.servers s).sight) (sendBuffer c q2) :=
  keeps_send c (fun _ _ ↦ keeps_server_logEvent _ s) (fun _ _ _ ↦ keeps_server_logEvent _ s)
    (keeps_sight_assign s q2 fun _ ↦ rfl)

private theorem keeps_sight_checkAnswer (c : Crypto) (s q2 : Fin N) (cipher : List UInt8) :
    Keeps (fun w ↦ (w.servers s).sight) (checkAnswer c q2 cipher) := by
  refine keeps_check c cipher (fun _ _ ↦ keeps_server_logEvent _ s)
    (fun _ ↦ keeps_server_logEvent _ s) (fun _ ↦ keeps_server_createHandle q2 _ s)
    fun f hf ↦ keeps_sight_assign s q2 fun r ↦ ?_
  exact (congrArg Q2Server.sight (hf r) :)

private theorem keeps_sight_closeConnection (s q2 : Fin N) :
    Keeps (fun w ↦ (w.servers s).sight) (closeConnection q2) :=
  keeps_close (fun _ _ ↦ keeps_server_logEvent _ s) (fun _ ↦ keeps_server_logEvent _ s)
    (keeps_sight_assign s q2 fun _ ↦ rfl)
    (keeps_removeServerSocket (v := Q2Server.sight) (fun _ _ ↦ rfl) s)

private theorem keeps_sight_acceptAuth (c : Crypto) (s q2 : Fin N) :
    Keeps (fun w ↦ (w.servers s).sight) (acceptAuth c q2) :=
  keeps_bind (keeps_sight_onOut s q2 _) fun _ ↦ keeps_sight_sendBuffer c s q2

private theorem keeps_sight_teleport (c : Crypto) (s q2 : Fin N) (clientId : UInt8)
    (location : List UInt8) :
    Keeps (fun w ↦ (w.servers s).sight) (teleport c q2 clientId location) := by
  have hsay (type : UInt8) (text : CharPtr) : Keeps (fun w : World N ↦ (w.servers s).sight)
      (do clientText q2 clientId type text; sendBuffer c q2) :=
    keeps_bind (keeps_sight_clientText s q2 _ _ _) fun _ ↦ keeps_sight_sendBuffer c s q2
  apply keeps_ite
  · exact keeps_bind (keeps_buildTeleportServers fun _ _ _ ↦ rfl) fun _ ↦ hsay _ _
  · apply keeps_bind fun _ ↦ rfl
    intro found
    cases found with
    | none => exact keeps_bind (keeps_sight_va s _) fun _ ↦ hsay _ _
    | some f =>
      apply keeps_bind fun _ ↦ rfl
      intro _
      apply keeps_bind (keeps_sight_va s _)
      intro _
      apply keeps_bind (keeps_sight_va s _)
      intro _
      apply keeps_bind (keeps_sight_clientText s q2 _ _ _)
      intro _
      apply keeps_bind fun _ ↦ rfl
      intro _
      exact keeps_bind (keeps_sight_onOut s q2 _) fun _ ↦ keeps_sight_sendBuffer c s q2

private theorem keeps_sight_invite (c : Crypto) (s q2 : Fin N) (clientId : UInt8)
    (text : List UInt8) : Keeps (fun w ↦ (w.servers s).sight) (invite c q2 clientId text) := by
  apply keeps_bind fun _ ↦ rfl
  intro _
  apply keeps_bind (keeps_sight_va s _)
  intro _
  apply keeps_bind fun _ ↦ rfl
  intro _
  apply keeps_forM
  intro t _
  apply keeps_bind fun _ ↦ rfl
  intro _
  apply keeps_ite (keeps_pure _)
  exact keeps_bind (keeps_sight_onOut s t _) fun _ ↦ keeps_sight_sendBuffer c s t

private theorem keeps_sight_concludeAuth (c : Crypto) (s q2 : Fin N) (verified : Bool) :
    Keeps (fun w ↦ (w.servers s).sight) (concludeAuth c q2 verified) := by
  apply keeps_ite (keeps_sight_acceptAuth c s q2)
  refine keeps_bind (keeps_bind (keeps_sight_onOut s q2 _) fun _ ↦ ?_) fun _ ↦
    keeps_sight_acceptAuth c s q2
  exact keeps_bind (keeps_sight_sendBuffer c s q2) fun _ ↦ keeps_sight_closeConnection s q2

private theorem pong_sight {w w' : World N} (h : (pong c q2).run w = .ok () w') :
    (w'.servers q2).sight = Command.ping.onSight (w.servers q2).sight := by
  obtain ⟨_, w₁, h₁, h⟩ := run_bind_ok h
  obtain ⟨_, w₂, h₂, h⟩ := run_bind_ok h
  obtain rfl := modifyServer_ok h₂
  have hout : (w₁.servers q2).sight = (w.servers q2).sight := (keeps_sight_onOut q2 q2 _).ok h₁
  rw [(keeps_sight_sendBuffer c q2 q2).ok h, World.updateServer_self, ← hout]
  rfl

/-- The handler of a command that returns does to what is seen what the command means. -/
theorem exec_sight {cmd : Command} {w w' : World N} (h : (exec c q2 cmd).run w = .ok () w') :
    (w'.servers q2).sight = cmd.onSight (w.servers q2).sight := by
  cases cmd with
  | auth cipher =>
    obtain ⟨b, w₁, h₁, h⟩ := run_bind_ok h
    exact ((keeps_sight_concludeAuth c q2 q2 b).ok h).trans
      ((keeps_sight_checkAnswer c q2 q2 cipher).ok h₁)
  | quit => exact (keeps_sight_closeConnection q2 q2).ok h
  | ping => exact pong_sight h
  | teleport clientId location => exact (keeps_sight_teleport c q2 q2 clientId location).ok h
  | invite clientId text => exact (keeps_sight_invite c q2 q2 clientId text).ok h
  | _ =>
    rw [exec_tells rfl h, World.updateServer_self]
    rfl

/-- The commands of a message do to what is seen what they mean, one after the other. -/
theorem execAll_sight {cmds : List Command} {w w' : World N}
    (h : (forM cmds (exec c q2)).run w = .ok () w') :
    (w'.servers q2).sight = (w.servers q2).sight.after cmds :=
  forM_foldl (v := fun w : World N ↦ (w.servers q2).sight) (fun _ _ _ ↦ exec_sight) h

end Handlers

/-- The player that a listing of entries from a slot on leaves in slot `i`. -/
def listedAt : UInt8 → List (UInt8 × List UInt8) → UInt8 → Option Player
  | _, [], _ => none
  | slot, (clientId, userinfo) :: entries, i =>
    (listedAt (clientId + 1) entries i).or
      (if i = slot then some (Player.entered clientId userinfo) else none)

namespace Command

/-- The player that the command leaves in slot `i`, if it writes the slot. -/
def entry (i : UInt8) : Command → Option Player
  | .connect clientId userinfo | .playerUpdate clientId userinfo =>
    if i = clientId then some (Player.entered clientId userinfo) else none
  | .disconnect clientId => if i = clientId then some Player.zero else none
  | .playerList _ entries => listedAt 0 entries i
  | _ => none

/-- What the command makes of the counter of players. -/
def onCount (n : UInt8) : Command → UInt8
  | .connect _ _ => n + 1
  | .disconnect _ => n - 1
  | .playerList count _ => count
  | _ => n

/-- The map that the command names. -/
def mapName : Command → Option (Field 20)
  | .map name => some (strncpy 20 name)
  | _ => none

/-- The command is a PING. -/
def isPing : Command → Bool
  | .ping => true
  | _ => false

end Command

/-- The commands leave nothing behind: who is entered in a slot last is a cleared player, the
counter is back at zero, the last map is the one without a name, and the pings have wrapped. -/
structure LeavesNothing (cmds : List Command) : Prop where
  players : ∀ i, ∀ p ∈ (cmds.filterMap (Command.entry i)).getLast?, p = Player.zero
  playercount : cmds.foldl Command.onCount 0 = 0
  map : ∀ m ∈ (cmds.filterMap Command.mapName).getLast?, m = Field.zero 20
  pings : cmds.countP Command.isPing % 4294967296 = 0

/-- Assigning one value after the other is assigning the last one. -/
theorem foldl_getD {α β : Type} (f : α → Option β) (l : List α) (b : β) :
    l.foldl (fun b a ↦ (f a).getD b) b = (l.filterMap f).getLast?.getD b := by
  induction l generalizing b with
  | nil => rfl
  | cons a l ih =>
    rw [List.foldl_cons, ih]
    cases hf : f a with
    | none => rw [List.filterMap_cons_none hf, Option.getD_none]
    | some b' =>
      rw [List.filterMap_cons_some hf, List.getLast?_cons, Option.getD_some, Option.getD_some]

private theorem fill_eq (slot : UInt8) (entries : List (UInt8 × List UInt8))
    (players : UInt8 → Player) (i : UInt8) :
    fill slot entries players i = (listedAt slot entries i).getD (players i) := by
  induction entries generalizing slot players with
  | nil => rfl
  | cons e entries ih =>
    rw [fill, listedAt, ih, Option.getD_or]
    congr 1
    by_cases hi : i = slot
    · rw [if_pos hi, hi, Function.update_self]
      rfl
    · rw [if_neg hi, Function.update_of_ne hi]
      rfl

/-- A command writes the slots of its entries. -/
theorem onTable_players (cmd : Command) (t : Table) (i : UInt8) :
    (cmd.onTable t).players i = (cmd.entry i).getD (t.players i) := by
  have hupdate (clientId : UInt8) (p : Player) :
      Function.update t.players clientId p i =
        (if i = clientId then some p else none).getD (t.players i) := by
    by_cases hi : i = clientId
    · rw [if_pos hi, hi, Function.update_self]
      rfl
    · rw [if_neg hi, Function.update_of_ne hi]
      rfl
  cases cmd with
  | connect clientId userinfo => exact hupdate _ _
  | playerUpdate clientId userinfo => exact hupdate _ _
  | disconnect clientId => exact hupdate _ _
  | playerList count entries => exact fill_eq 0 entries t.players i
  | _ => rfl

private theorem onTable_playercount (cmd : Command) (t : Table) :
    (cmd.onTable t).playercount = cmd.onCount t.playercount := by
  cases cmd <;> rfl

private theorem onTable_map (cmd : Command) (t : Table) :
    (cmd.onTable t).map = cmd.mapName.getD t.map := by
  cases cmd <;> rfl

private theorem onSight_table (cmd : Command) (v : Sight) :
    (cmd.onSight v).table = cmd.onTable v.table := by
  cases cmd <;> rfl

private theorem onSight_pings (cmd : Command) (v : Sight) :
    (cmd.onSight v).pings = if cmd.isPing then v.pings + 1 else v.pings := by
  cases cmd <;> rfl

namespace Sight

variable (v : Sight) (cmds : List Command)

/-- What is seen after two parts of a run is seen after one and then the other. -/
theorem after_append (cmds' : List Command) :
    v.after (cmds ++ cmds') = (v.after cmds).after cmds' :=
  List.foldl_append

/-- In each slot of the table stands the last player that has been entered there. -/
theorem after_players (i : UInt8) : (v.after cmds).table.players i =
    (cmds.filterMap (Command.entry i)).getLast?.getD (v.table.players i) := by
  rw [← foldl_getD]
  refine (List.foldl_hom (fun v : Sight ↦ v.table.players i) fun v cmd ↦ ?_).symm
  rw [onSight_table, onTable_players]

/-- The count of players is what the commands have made of it, one after another. -/
theorem after_playercount :
    (v.after cmds).table.playercount = cmds.foldl Command.onCount v.table.playercount := by
  refine (List.foldl_hom (fun v : Sight ↦ v.table.playercount) fun v cmd ↦ ?_).symm
  rw [onSight_table, onTable_playercount]

private theorem after_map : (v.after cmds).table.map =
    (cmds.filterMap Command.mapName).getLast?.getD v.table.map := by
  rw [← foldl_getD]
  refine (List.foldl_hom (fun v : Sight ↦ v.table.map) fun v cmd ↦ ?_).symm
  rw [onSight_table, onTable_map]

private theorem after_pings :
    (v.after cmds).pings = v.pings + UInt32.ofNat (cmds.countP Command.isPing) := by
  induction cmds generalizing v with
  | nil => exact (UInt32.add_zero _).symm
  | cons cmd cmds ih =>
    have hrest := ih (cmd.onSight v)
    rw [onSight_pings] at hrest
    refine hrest.trans ?_
    by_cases hp : cmd.isPing = true
    · rw [if_pos hp, List.countP_cons_of_pos hp, UInt32.ofNat_add, UInt32.add_assoc,
        UInt32.add_comm 1]
      rfl
    · rw [if_neg hp, List.countP_cons_of_neg hp]

end Sight

private theorem getD_eq_iff {α : Type} {o : Option α} {a : α} :
    o.getD a = a ↔ ∀ b ∈ o, b = a := by
  cases o with
  | none => simp
  | some b => simp

private theorem ofNat_eq_zero_iff {n : Nat} : UInt32.ofNat n = 0 ↔ n % 4294967296 = 0 := by
  rw [← UInt32.toNat_inj, UInt32.toNat_ofNat']
  exact Iff.rfl

/-- From a server that shows nothing these commands, and no others, lead back to one. -/
theorem leavesNothing_iff (cmds : List Command) :
    Sight.fresh.after cmds = .fresh ↔ LeavesNothing cmds := by
  have hplayers (i : UInt8) := Sight.fresh.after_players cmds i
  have hcount : (Sight.fresh.after cmds).table.playercount = cmds.foldl Command.onCount 0 :=
    Sight.fresh.after_playercount cmds
  have hmap : (Sight.fresh.after cmds).table.map =
      (cmds.filterMap Command.mapName).getLast?.getD (.zero 20) := Sight.fresh.after_map cmds
  have hpings : (Sight.fresh.after cmds).pings = UInt32.ofNat (cmds.countP Command.isPing) :=
    (Sight.fresh.after_pings cmds).trans (UInt32.zero_add _)
  constructor
  · intro h
    rw [h] at hcount hmap hpings
    refine ⟨fun i ↦ ?_, hcount.symm, getD_eq_iff.mp hmap.symm, ?_⟩
    · have hi := hplayers i
      rw [h] at hi
      exact getD_eq_iff.mp hi.symm
    · exact ofNat_eq_zero_iff.mp hpings.symm
  · intro h
    have htable : (Sight.fresh.after cmds).table.players = Sight.fresh.table.players :=
      funext fun i ↦ (hplayers i).trans (getD_eq_iff.mpr (h.players i))
    rw [h.playercount] at hcount
    rw [getD_eq_iff.mpr h.map] at hmap
    rw [ofNat_eq_zero_iff.mpr h.pings] at hpings
    calc Sight.fresh.after cmds
        = ⟨⟨(Sight.fresh.after cmds).table.players, (Sight.fresh.after cmds).table.playercount,
            (Sight.fresh.after cmds).table.map⟩, (Sight.fresh.after cmds).pings⟩ := rfl
      _ = .fresh := by
        rw [htable, hcount, hmap, hpings]
        rfl

end Q2Admin
