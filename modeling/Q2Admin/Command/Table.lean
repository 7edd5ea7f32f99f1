import Q2Admin.Command.Handlers

/-!
# The player table

Library `Q2Admin.Command`. The abstract meaning of commands for the players and the map of
a server: `Command.onTable`. `exec_table` says that the handlers have this meaning
whenever they return.
-/

namespace Q2Admin

open Exec

variable {N : Nat}

/-- What a server tells about its game. -/
structure Table where
  players : UInt8 → Player
  playercount : UInt8
  map : Field 20

/-- The part of a record that a server tells about its game. -/
def Q2Server.table (s : Q2Server) : Table := ⟨s.players, s.playercount, s.map⟩

/-- A record with another table. -/
def Q2Server.withTable (s : Q2Server) (t : Table) : Q2Server :=
  { s with players := t.players, playercount := t.playercount, map := t.map }

/-- A record with a table has that table. -/
@[simp] theorem Q2Server.table_withTable (s : Q2Server) (t : Table) :
    (s.withTable t).table = t := rfl

/-- A record with its own table is itself. -/
@[simp] theorem Q2Server.withTable_table (s : Q2Server) : s.withTable s.table = s := rfl

/-- The second one of two tables stays. -/
@[simp] theorem Q2Server.withTable_withTable (s : Q2Server) (t t' : Table) :
    (s.withTable t).withTable t' = s.withTable t' := rfl

/-- The value of the key `"name"`. -/
def nameOf (userinfo : List UInt8) : List UInt8 :=
  match infoValueForKey userinfo nameKey with
  | .ok name => name
  | .error _ => []

/-- The slot of a player who connects or changes his userinfo. -/
def Player.entered (clientId : UInt8) (userinfo : List UInt8) : Player :=
  Player.make clientId (nameOf userinfo) userinfo

/-- The slots after the entries of a PLAYERLIST, the first of which goes to slot `i` and every
other one to the slot behind the id before it. -/
def fill : UInt8 → List (UInt8 × List UInt8) → (UInt8 → Player) → UInt8 → Player
  | _, [], players => players
  | i, (clientId, userinfo) :: entries, players =>
    fill (clientId + 1) entries (Function.update players i (Player.entered clientId userinfo))

/-- What a command means for the table of its server. -/
def Command.onTable : Command → Table → Table
  | .connect clientId userinfo, t =>
    { t with
      players := Function.update t.players clientId (Player.entered clientId userinfo)
      playercount := t.playercount + 1 }
  | .playerUpdate clientId userinfo, t =>
    { t with players := Function.update t.players clientId (Player.entered clientId userinfo) }
  | .disconnect clientId, t =>
    { t with
      players := Function.update t.players clientId Player.zero
      playercount := t.playercount - 1 }
  | .playerList count entries, t =>
    { t with players := fill 0 entries t.players, playercount := count }
  | .map name, t => { t with map := strncpy 20 name }
  | _, t => t

private theorem liftFault_ok {userinfo name : List UInt8} {w w' : World N}
    (h : (liftFault (infoValueForKey userinfo nameKey)).run w = .ok name w') :
    name = nameOf userinfo ∧ w = w' := by
  unfold nameOf
  cases hi : infoValueForKey userinfo nameKey with
  | ok n =>
    rw [hi] at h
    cases h
    exact ⟨rfl, rfl⟩
  | error e =>
    rw [hi] at h
    cases h

private theorem enterPlayer_ok {q2 : Fin N} {clientId : UInt8} {userinfo : List UInt8}
    {w w' : World N} (h : (enterPlayer q2 clientId userinfo).run w = .ok () w') :
    w' = w.updateServer q2 fun s ↦ s.setPlayer clientId (Player.entered clientId userinfo) := by
  obtain ⟨name, w₁, h₁, h⟩ := run_bind_ok h
  obtain ⟨rfl, rfl⟩ := liftFault_ok h₁
  exact modifyServer_ok h

private theorem listPlayer_ok {q2 : Fin N} {slot clientId : UInt8} {userinfo : List UInt8}
    {w w' : World N} (h : (listPlayer q2 slot clientId userinfo).run w = .ok () w') :
    w' = w.updateServer q2 fun s ↦ s.setPlayer slot (Player.entered clientId userinfo) := by
  obtain ⟨_, w₁, h₁, h⟩ := run_bind_ok h
  obtain ⟨name, w₂, h₂, h⟩ := run_bind_ok h
  obtain ⟨rfl, rfl⟩ := liftFault_ok h₂
  rw [modifyServer_ok h, modifyServer_ok h₁, World.updateServer_updateServer]
  unfold Q2Server.setPlayer Player.entered
  dsimp only
  simp only [Function.update_idem]

/-- The entries of a listing change the player table of their server only. -/
theorem execEntries_ok {q2 : Fin N} {i : UInt8} {entries : List (UInt8 × List UInt8)}
    {w w' : World N} (h : (execEntries q2 i entries).run w = .ok () w') :
    w' = w.updateServer q2 fun s ↦ { s with players := fill i entries s.players } := by
  induction entries generalizing i w with
  | nil =>
    cases h
    exact (World.updateServer_eq_self _ rfl).symm
  | cons e entries ih =>
    obtain ⟨_, w₁, h₁, h⟩ := run_bind_ok h
    rw [ih h, listPlayer_ok h₁, World.updateServer_updateServer]
    rfl

/-- The commands that act on nothing but the table, if on anything. -/
def Command.tells : Command → Bool
  | .auth _ | .quit | .ping | .teleport _ _ | .invite _ _ => false
  | _ => true

/-- What the handler of such a command leaves. -/
theorem exec_tells {c : Crypto} {q2 : Fin N} {cmd : Command} {w w' : World N}
    (ht : cmd.tells = true) (h : (exec c q2 cmd).run w = .ok () w') :
    w' = w.updateServer q2 fun s ↦ s.withTable (cmd.onTable s.table) := by
  have hidle (h : (pure () : M N Unit).run w = .ok () w') :
      w' = w.updateServer q2 fun s ↦ s.withTable s.table := by
    cases h
    exact (World.updateServer_eq_self _ rfl).symm
  cases cmd with
  | connect clientId userinfo =>
    obtain ⟨_, w₁, h₁, h⟩ := run_bind_ok h
    rw [modifyServer_ok h, enterPlayer_ok h₁, World.updateServer_updateServer]
    rfl
  | playerUpdate clientId userinfo => exact enterPlayer_ok h
  | disconnect clientId => exact modifyServer_ok h
  | playerList count entries =>
    obtain ⟨_, w₁, h₁, h⟩ := run_bind_ok h
    rw [execEntries_ok h, modifyServer_ok h₁, World.updateServer_updateServer]
    rfl
  | map name => exact modifyServer_ok h
  | print level text => exact hidle h
  | command kind => exact hidle h
  | other cmd => exact hidle h
  | _ => cases ht

/-- What the handlers of several such commands leave. -/
theorem execAll_tells {c : Crypto} {q2 : Fin N} {cmds : List Command} {w w' : World N}
    (ht : ∀ cmd ∈ cmds, cmd.tells = true) (h : (forM cmds (exec c q2)).run w = .ok () w') :
    w' = w.updateServer q2 fun s ↦
      s.withTable (cmds.foldl (fun t cmd ↦ cmd.onTable t) s.table) := by
  induction cmds generalizing w with
  | nil =>
    cases h
    exact (World.updateServer_eq_self _ rfl).symm
  | cons cmd cmds ih =>
    rw [List.forM_cons] at h
    obtain ⟨_, w₁, h₁, h⟩ := run_bind_ok h
    rw [ih (fun cmd hcmd ↦ ht cmd (List.mem_cons_of_mem _ hcmd)) h,
      exec_tells (ht cmd List.mem_cons_self) h₁, World.updateServer_updateServer]
    rfl

/-- The handler of a command that returns does to the table what the command means. -/
theorem exec_table {c : Crypto} {q2 : Fin N} {cmd : Command} {w w' : World N}
    (h : (exec c q2 cmd).run w = .ok () w') :
    (w'.servers q2).table = cmd.onTable (w.servers q2).table := by
  by_cases ht : cmd.tells = true
  · rw [exec_tells ht h, World.updateServer_self, Q2Server.table_withTable]
  · have hkeeps (hw : cmd.writes = false) : (w'.servers q2).table = (w.servers q2).table :=
      (keeps_exec (v := Q2Server.table) (fun _ ↦ rfl) c q2 q2 hw).ok h
    cases cmd with
    | auth cipher => exact hkeeps rfl
    | quit => exact hkeeps rfl
    | ping => exact hkeeps rfl
    | teleport clientId location => exact hkeeps rfl
    | invite clientId text => exact hkeeps rfl
    | _ => exact absurd rfl ht

/-- The commands of a message do to the table what they mean, one after the other. -/
theorem execAll_table {c : Crypto} {q2 : Fin N} {cmds : List Command} {w w' : World N}
    (h : (forM cmds (exec c q2)).run w = .ok () w') :
    (w'.servers q2).table = cmds.foldl (fun t cmd ↦ cmd.onTable t) (w.servers q2).table :=
  forM_foldl (v := fun w : World N ↦ (w.servers q2).table) (fun _ _ _ ↦ exec_table) h

end Q2Admin
