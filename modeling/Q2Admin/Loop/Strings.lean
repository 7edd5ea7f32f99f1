import Q2Admin.Session.Frames
import Q2Admin.Loop.PollTable

/-!
# Stored strings

Library `Q2Admin.Loop`. The text fields of records are written by `strncpy`, which leaves no
terminator when the source fills the field. In runs whose rows and commands are short enough
for the fields they go to, every stored string ends inside its own field.
-/

namespace Q2Admin

open Exec

variable {N : Nat}

/-- The strings of a player end inside their fields. -/
structure Player.Terminated (p : Player) : Prop where
  name : p.name.Terminated
  userinfo : p.userinfo.Terminated

/-- The strings of a server end inside their fields. -/
structure Q2Server.Terminated (s : Q2Server) : Prop where
  name : s.name.Terminated
  ip : s.ip.Terminated
  map : s.map.Terminated
  players : ∀ slot, (s.players slot).Terminated

/-- Every stored string ends inside its own field. -/
def World.Terminated (w : World N) : Prop := ∀ s, (w.servers s).Terminated

/-- The columns of a row are short enough for the fields they are copied to. -/
def Row.Short (r : Row) : Prop := (cstr r.name).length < 50 ∧ (cstr r.ip).length < 16

/-- A userinfo string and the name in it are short enough for the slot of a player. -/
def ShortInfo (userinfo : List UInt8) : Prop :=
  (cstr (nameOf userinfo)).length < 15 ∧ (cstr userinfo).length < 512

/-- The strings of a command are short enough for the fields they are copied to. -/
def Command.Short : Command → Prop
  | .connect _ userinfo | .playerUpdate _ userinfo => ShortInfo userinfo
  | .playerList _ entries => ∀ e ∈ entries, ShortInfo e.2
  | .map name => (cstr name).length < 20
  | _ => True

private theorem terminated_entered_iff (clientId : UInt8) (userinfo : List UInt8) :
    (Player.entered clientId userinfo).Terminated ↔ ShortInfo userinfo := by
  constructor
  · intro h
    exact ⟨(terminated_strncpy_iff 15 _).mp h.name, (terminated_strncpy_iff 512 _).mp h.userinfo⟩
  · intro h
    exact ⟨(terminated_strncpy_iff 15 _).mpr h.1, (terminated_strncpy_iff 512 _).mpr h.2⟩

private theorem terminated_player_zero : Player.zero.Terminated :=
  ⟨terminated_zero (by decide), terminated_zero (by decide)⟩

private theorem terminated_update {players : UInt8 → Player}
    (h : ∀ slot, (players slot).Terminated) {p : Player} (hp : p.Terminated) (slot slot' : UInt8) :
    (Function.update players slot p slot').Terminated := by
  by_cases hs : slot' = slot
  · rw [hs, Function.update_self]
    exact hp
  · rw [Function.update_of_ne hs]
    exact h slot'

private theorem terminated_fill {entries : List (UInt8 × List UInt8)}
    (hshort : ∀ e ∈ entries, ShortInfo e.2) (i : UInt8) {players : UInt8 → Player}
    (h : ∀ slot, (players slot).Terminated) (slot : UInt8) :
    (fill i entries players slot).Terminated := by
  induction entries generalizing i players with
  | nil => exact h slot
  | cons e entries ih =>
    have hfirst := (terminated_entered_iff e.1 e.2).mpr (hshort e List.mem_cons_self)
    exact ih (fun e' he ↦ hshort e' (List.mem_cons_of_mem e he)) (e.1 + 1)
      (terminated_update h hfirst i)

-- What a server tells about its game is stored in terminated strings.
private structure Table.Terminated (t : Table) : Prop where
  map : t.map.Terminated
  players : ∀ slot, (t.players slot).Terminated

private theorem terminated_onTable {cmd : Command} (hshort : cmd.Short) {t : Table}
    (h : t.Terminated) : (cmd.onTable t).Terminated := by
  cases cmd with
  | connect clientId userinfo =>
    have hp := (terminated_entered_iff clientId userinfo).mpr hshort
    exact ⟨h.map, terminated_update h.players hp clientId⟩
  | playerUpdate clientId userinfo =>
    have hp := (terminated_entered_iff clientId userinfo).mpr hshort
    exact ⟨h.map, terminated_update h.players hp clientId⟩
  | disconnect clientId =>
    exact ⟨h.map, terminated_update h.players terminated_player_zero clientId⟩
  | playerList count entries => exact ⟨h.map, terminated_fill hshort 0 h.players⟩
  | map name => exact ⟨(terminated_strncpy_iff 20 name).mpr hshort, h.players⟩
  | _ => exact h

private theorem terminated_foldl {cmds : List Command} (hshort : ∀ cmd ∈ cmds, cmd.Short)
    {t : Table} (h : t.Terminated) : (cmds.foldl (fun t cmd ↦ cmd.onTable t) t).Terminated := by
  induction cmds generalizing t with
  | nil => exact h
  | cons cmd cmds ih =>
    exact ih (fun cmd' hc ↦ hshort cmd' (List.mem_cons_of_mem cmd hc))
      (terminated_onTable (hshort cmd List.mem_cons_self) h)

private theorem terminated_game (s : Q2Server) : s.game.Terminated ↔ s.Terminated :=
  ⟨fun h ↦ ⟨h.name, h.ip, h.map, h.players⟩, fun h ↦ ⟨h.name, h.ip, h.map, h.players⟩⟩

private theorem terminated_of_game {s s' : Q2Server} (h : s'.game = s.game)
    (hs : s.Terminated) : s'.Terminated := by
  rw [← terminated_game, h, terminated_game]
  exact hs

private theorem terminated_execAll {c : Crypto} {q2 : Fin N} {cmds : List Command} {w w' : World N}
    (hshort : ∀ cmd ∈ cmds, cmd.Short) (h : (forM cmds (exec c q2)).run w = .ok () w')
    (hw : w.Terminated) : w'.Terminated := by
  intro s
  by_cases hs : s = q2
  · subst hs
    have hlasting {ν : Type} {v : Q2Server → ν} (hv : ∀ r, v r.lasting = v r) :
        v (w'.servers s) = v (w.servers s) :=
      (keeps_forM fun cmd _ ↦ keeps_lasting_exec hv c s s cmd).ok h
    have htable : (w'.servers s).table.Terminated := by
      rw [execAll_table h]
      exact terminated_foldl hshort ⟨(hw s).map, (hw s).players⟩
    refine ⟨?_, ?_, htable.map, htable.players⟩
    · rw [hlasting (v := Q2Server.name) fun _ ↦ rfl]
      exact (hw s).name
    · rw [hlasting (v := Q2Server.ip) fun _ ↦ rfl]
      exact (hw s).ip
  · have hsettled := settled_execAll hs h
    have hgame : (w'.servers s).game = (w.servers s).game := (congrArg Q2Server.game hsettled :)
    exact terminated_of_game hgame (hw s)

/-- The commands that are heard in the next step are short enough. -/
def ShortHeard (c : Crypto) (m : Move) (w : World N) : Prop :=
  ∀ p ∈ moveHeard c m w, ∀ cmd ∈ p.2, cmd.Short

private theorem terminated_step {c : Crypto} {m : Move} {w w' : World N}
    (hshort : ShortHeard c m w) (h : step c m w = some w') (hw : w.Terminated) :
    w'.Terminated := by
  cases m with
  | poll ready =>
    rw [step_poll h]
    exact hw
  | serve env =>
    obtain ⟨w₁, hturn, rfl⟩ := step_turn h
    change w₁.Terminated
    rcases indifferent_games.turn keeps_games_rebuild hturn (fun _ _ ↦ rfl)
        fun _ ↦ rfl with
      hsame | ⟨q2, cmds, w₂, heard, hsame, run⟩
    · exact fun s ↦ terminated_of_game (congrFun hsame s) (hw s)
    · exact terminated_execAll (hshort _ heard) run fun s ↦
        terminated_of_game (congrFun hsame s) (hw s)

/-- What is short enough leaves every string inside its field. -/
theorem terminated_run {c : Crypto} {rows : Fin N → Row} {listener : Nat} {junk : Nat → PollFd}
    {ms : List Move} {w : World N} (hrows : ∀ s, (rows s).Short)
    (hrun : Run (step c) (ShortHeard c) ms (initial rows listener junk) w) : w.Terminated := by
  refine hrun.invariant (fun _ _ _ hshort hs hw ↦ terminated_step hshort hs hw) fun s ↦ ?_
  refine ⟨?_, ?_, terminated_zero (by decide), fun _ ↦ terminated_player_zero⟩
  · exact (terminated_strncpy_iff 50 _).mpr (hrows s).1
  · exact (terminated_strncpy_iff 16 _).mpr (hrows s).2

/-- In runs whose rows and commands are short enough for the fields they are copied to, every
stored string ends inside its own field. -/
theorem strings_terminated (c : Crypto) (rows : Fin N → Row) (listener : Nat)
    (junk : Nat → PollFd) (ms : List Move) (w : World N) (hrows : ∀ s, (rows s).Short)
    (hrun : Run (step c) (ShortHeard c) ms (initial rows listener junk) w) : w.Terminated :=
  terminated_run hrows hrun

instance (userinfo : List UInt8) : Decidable (ShortInfo userinfo) :=
  inferInstanceAs (Decidable (_ ∧ _))

instance : (cmd : Command) → Decidable cmd.Short
  | .connect _ userinfo | .playerUpdate _ userinfo =>
    inferInstanceAs (Decidable (ShortInfo userinfo))
  | .playerList _ entries => inferInstanceAs (Decidable (∀ e ∈ entries, ShortInfo e.2))
  | .map name => inferInstanceAs (Decidable ((cstr name).length < 20))
  | .auth _ | .quit | .ping | .print _ _ | .teleport _ _ | .invite _ _ | .command _ | .disconnect _
  | .other _ => inferInstanceAs (Decidable True)

instance (c : Crypto) (m : Move) (w : World N) : Decidable (ShortHeard c m w) :=
  inferInstanceAs (Decidable (∀ p ∈ moveHeard c m w, ∀ cmd ∈ p.2, cmd.Short))

/-- A server tells the name of its map. -/
theorem strings_terminated_sample :
    ∃ w : World 1, (w.servers 0).mapStr = ascii "q2dm1" ∧ w.Terminated := by
  have h : (follow (step Crypto.clear) (ShortHeard Crypto.clear) (sampleBound ++
      [.receiving (11 :: (ascii "q2dm1" ++ [0])) (by decide)]) sampleStart).any
        (fun w ↦ (w.servers 0).mapStr == ascii "q2dm1") = true := by decide +kernel
  obtain ⟨w, hrun, hw⟩ := Run.exists_of_follow h
  exact ⟨w, beq_iff_eq.mp hw,
    strings_terminated _ _ _ _ _ w (fun _ ↦ ⟨by decide, by decide⟩) hrun⟩

/-- A map name of twenty characters fills its field. -/
theorem map_unterminated :
    ¬ ∀ (ms : List Move) (w : World 1), Run (step Crypto.clear) Unguarded ms sampleStart w →
      w.Terminated := by
  have h : (follow (step Crypto.clear) Unguarded (sampleBound ++
      [.receiving (11 :: (List.replicate 20 97 ++ [0])) (by decide)]) sampleStart).any
        (fun w ↦ !decide (w.servers 0).map.Terminated) = true := by decide +kernel
  obtain ⟨w, hrun, hw⟩ := Run.exists_of_follow h
  intro hall
  rw [decide_eq_true (hall _ w hrun 0).map] at hw
  cases hw

end Q2Admin
