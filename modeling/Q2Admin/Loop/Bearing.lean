import Q2Admin.Loop.AuthInput
import Q2Admin.Loop.PlayerList
import Q2Admin.Loop.TeleportList
import Q2Admin.Session.Room

/-!
# What a handler can take

Library `Q2Admin.Loop`. Source `parse.c`. The handlers check almost nothing that they are sent.
`exec_returns_iff` says for every command when its handler returns: the strings fit the buffers that
they are copied to, the key and the players that it relies on are there, and its reply has room.
-/

namespace Q2Admin

open Exec

variable {N : Nat} {c : Crypto} {q2 : Fin N} {w w' : World N}

/-- The keys and values of a userinfo string up to the name fit the buffers that they are copied
to. -/
def UserinfoFits (userinfo : List UInt8) : Prop :=
  PiecesFit nameKey ((infoBody userinfo).splitOn backslash)

/-- What the handler of a command relies on, apart from room for its reply. -/
def Command.Usable (c : Crypto) (w : World N) (q2 : Fin N) : Command → Prop
  | .auth cipher => cipher.length ≤ rsaLen ∧ ∃ k, (w.servers q2).publickey = some k ∧
    ∀ block, c.rsaPublicDecrypt k.key cipher = some block → block.length ≤ challengeLen
  | .teleport _ location => location = [] → w.Buildable
  | .connect _ userinfo | .playerUpdate _ userinfo => UserinfoFits userinfo
  | .playerList _ entries => ∀ e ∈ entries, UserinfoFits e.2
  | _ => True

/-- The handler of a command finds what it relies on, and room for its reply behind what waits for
the server if that is not connected. -/
structure Command.Bearable (c : Crypto) (q2 : Fin N) (cmd : Command) (w : World N) : Prop where
  usable : cmd.Usable c w q2
  room : (w.servers q2).connected = false →
    (w.servers q2).msg.length + (cmd.reply c w q2).length ≤ msgSize

private theorem liftFault_returns_iff {α : Type} (x : Except Fault α) (w : World N) :
    Returns (liftFault x) w ↔ ∃ a, x = .ok a := by
  cases x with
  | ok a => exact ⟨fun _ ↦ ⟨a, rfl⟩, fun _ ↦ ⟨a, w, rfl⟩⟩
  | error e =>
    constructor
    · rintro ⟨_, _, h⟩
      cases h
    · rintro ⟨_, h⟩
      cases h

private theorem name_found_iff (userinfo : List UInt8) :
    (∃ name, infoValueForKey userinfo nameKey = .ok name) ↔ UserinfoFits userinfo := by
  rw [infoValueForKey_pieces]
  by_cases hfit : PiecesFit nameKey ((infoBody userinfo).splitOn backslash)
  · exact ⟨fun _ ↦ hfit, fun _ ↦ ⟨_, infoResult_of_fit nameKey _ hfit⟩⟩
  · rw [infoResult_of_not_fit nameKey _ hfit]
    constructor
    · rintro ⟨_, h⟩
      cases h
    · exact fun h ↦ absurd h hfit

private theorem modifyServer_returns (q2 : Fin N) (f : Q2Server → Q2Server) (w : World N) :
    Returns (modifyServer q2 f) w := ⟨(), _, rfl⟩

private theorem enterPlayer_returns_iff (q2 : Fin N) (clientId : UInt8) (userinfo : List UInt8)
    (w : World N) : Returns (enterPlayer q2 clientId userinfo) w ↔ UserinfoFits userinfo := by
  rw [← name_found_iff, ← liftFault_returns_iff _ w]
  exact returns_bind_iff fun _ _ _ ↦ modifyServer_returns q2 _ _

private theorem listing_returns_iff (q2 : Fin N) (entries : List (UInt8 × List UInt8))
    (w : World N) : Returns (execEntries q2 0 entries) w ↔ ∀ e ∈ entries, UserinfoFits e.2 := by
  simp only [← name_found_iff]
  rw [← execEntries_returns_iff q2 0 entries w]
  constructor
  · rintro ⟨_, w', hrun⟩
    exact ⟨w', hrun⟩
  · rintro ⟨w', hrun⟩
    exact .of_ok hrun

/-- What comes before the reply returns exactly if what it relies on is there. -/
theorem prepare_returns_iff (cmd : Command) (w : World N) :
    Returns (cmd.prepare c q2) w ↔ cmd.Usable c w q2 := by
  have hnothing : Returns (pure () : M N Unit) w := ⟨(), w, rfl⟩
  cases cmd with
  | auth cipher =>
    exact (returns_bind_iff fun _ w₁ _ ↦ ⟨(), w₁, rfl⟩).trans
      (checkAnswer_returns_iff c q2 cipher w)
  | teleport clientId location =>
    unfold Command.prepare Command.Usable
    dsimp only
    by_cases hl : location = []
    · rw [if_pos hl]
      exact ((returns_bind_iff fun _ w₁ _ ↦ ⟨(), w₁, rfl⟩).trans
        (buildTeleportServers_returns_iff w)).trans ⟨fun h _ ↦ h, fun h ↦ h hl⟩
    · rw [if_neg hl]
      exact ⟨fun _ h ↦ absurd h hl, fun _ ↦ hnothing⟩
  | connect clientId userinfo =>
    exact (returns_bind_iff fun _ _ _ ↦ modifyServer_returns q2 _ _).trans
      (enterPlayer_returns_iff q2 clientId userinfo w)
  | playerUpdate clientId userinfo => exact enterPlayer_returns_iff q2 clientId userinfo w
  | playerList count entries =>
    have hfirst : (modifyServer q2 fun s ↦ { s with playercount := count }).run w =
        .ok () (w.updateServer q2 fun s ↦ { s with playercount := count }) := rfl
    exact (returns_bind_of_ok hfirst).trans (listing_returns_iff q2 entries _)
  | disconnect | map => exact ⟨fun _ ↦ trivial, fun _ ↦ modifyServer_returns q2 _ w⟩
  | quit | ping | invite | print | command | other =>
    exact ⟨fun _ ↦ trivial, fun _ ↦ hnothing⟩

/-- The handler of a command returns exactly if it can take the command. -/
theorem exec_returns_iff {cmd : Command} (h : w.Quiet) (hin : w.Within) :
    Returns (exec c q2 cmd) w ↔ cmd.Bearable c q2 w := by
  constructor
  · rintro ⟨_, w', hrun⟩
    obtain ⟨w₁, hprep⟩ := prepare_of_exec hrun
    refine ⟨(prepare_returns_iff cmd w).mp (.of_ok hprep), fun hc ↦ ?_⟩
    by_contra hlong
    obtain ⟨v, hfault⟩ := exec_faults h hin hc hprep (Nat.lt_of_not_le hlong)
    exact not_returns hfault (.of_ok hrun)
  · rintro ⟨husable, hroom⟩
    obtain ⟨_, w₁, hprep⟩ := (prepare_returns_iff cmd w).mpr husable
    obtain ⟨w', hrun, _⟩ := exec_returns h hin (fun hc _ _ ↦ hroom hc) hprep
    exact .of_ok hrun

/-- The commands of a server can be taken one after the other. -/
def BearsAll (c : Crypto) (q2 : Fin N) (cmds : List Command) (w : World N) : Prop :=
  EachRound (exec c q2) (Command.Bearable c q2) cmds w

/-- The handlers of commands return exactly if each command can be borne when it comes. -/
theorem execAll_returns_iff {cmds : List Command} (h : w.Quiet) (hin : w.Within) :
    Returns (forM cmds (exec c q2)) w ↔ BearsAll c q2 cmds w :=
  returns_forM_iff (I := fun w ↦ w.Quiet ∧ w.Within) (fun _ _ hw ↦ exec_returns_iff hw.1 hw.2)
    (fun _ _ _ hw hrun ↦ ⟨quiet_exec hw.1 hrun, within_exec hw.1 hw.2 hrun⟩) ⟨h, hin⟩

/-- The message in the buffer can be read to its end, and its commands can be taken. -/
def World.Takes (c : Crypto) (w : World N) (q2 : Fin N) : Prop :=
  ∃ cmds m, (readCommands parseRounds).run ((w.servers q2).plainMessage c w.msg) = .ok cmds m ∧
    BearsAll c q2 cmds { w with msg := m, trace := w.deciphering q2 ++ w.trace }

end Q2Admin
