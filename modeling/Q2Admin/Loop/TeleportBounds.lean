import Q2Admin.Loop.Broadcast
import Q2Admin.Loop.FreshStart
import Q2Admin.Loop.TeleportList

/-!
# The bounds of the teleport list

Library `Q2Admin.Loop`. Source `util.c:220–252`, `parse.c:134–151` and `parse.c:235–257`.
`BuildTeleportServers` collects the names of a server in `players[300]` and cuts off the last two
bytes. Whether it stays within the array depends on the commands that have been heard of the trusted
servers: they maintain the counter of players and the slots, in all sessions, and nothing else does.
-/

namespace Q2Admin

open Exec

variable {N : Nat} {c : Crypto} {rows : Fin N → Row} {listener : Nat} {junk : Nat → PollFd}
  {q2 : Fin N} {v w w' : World N}

/-- In the turn that comes in the state `v`, a message of the server gets to `ParseMessage`. -/
inductive Begins (c : Crypto) (q2 : Fin N) (v : World N) : World N → Prop
  /-- A message from the owner of the slot. -/
  | message (slot : v.scan < v.socketCount) (client : (v.sockets v.scan).fd ≠ v.listener)
      (owner : v.getServer v.scan = some q2) (recv : Recv) :
      Begins c q2 v (v.receiving recv v.scan)
  /-- What stands behind the HELLO on a new socket. -/
  | hello {w : World N} (slot : v.scan < v.socketCount)
      (client : (v.sockets v.scan).fd ≠ v.listener) (owner : v.getServer v.scan = none)
      (recv : Recv) (env : HelloEnv) (h : Hello) (m : MsgBuffer)
      (read : readFirst.run recv.buffer = .ok (.hello h) m)
      (register : (registerHello c env v.scan h).run { v.receiving recv v.scan with msg := m } =
        .ok (some q2) w) :
      Begins c q2 v w

/-- The states between two commands, with the commands of each server that have been heard until
then. -/
inductive Heard (c : Crypto) (rows : Fin N → Row) (listener : Nat) (junk : Nat → PollFd) :
    (Fin N → List Command) → World N → Prop
  /-- At an iteration boundary of the event loop. -/
  | loop {ms : List Move} {w : World N}
      (run : Run (step c) Unguarded ms (initial rows listener junk) w) :
      Heard c rows listener junk (fun s ↦ heardIn c s ms (initial rows listener junk)) w
  /-- In a message, when the first rounds of the loop of `ParseMessage` have read commands. -/
  | rounds {ms : List Move} {q2 : Fin N} {v w w' : World N}
      (run : Run (step c) Unguarded ms (initial rows listener junk) v) (begins : Begins c q2 v w)
      (n : Nat) {cmds : List Command} {m : MsgBuffer}
      (read : (readCommands n).run ((w.servers q2).plainMessage c w.msg) = .ok cmds m)
      (rounds : (decryptMessage c q2 >>= fun _ ↦ parseLoop c q2 n).run w = .ok () w') :
      Heard c rows listener junk (fun s ↦ heardIn c s ms (initial rows listener junk) ++
        heardOf s (some (q2, cmds))) w'

/-- Every call of `ParseMessage` begins in a state of the loop. -/
theorem parseCall_iff : ParseCall c rows listener junk q2 w ↔
    ∃ ms v, Run (step c) Unguarded ms (initial rows listener junk) v ∧ Begins c q2 v w := by
  constructor
  · intro h
    cases h with
    | message run slot client owner recv => exact ⟨_, _, run, .message slot client owner recv⟩
    | hello run slot client owner recv env h m read register =>
      exact ⟨_, _, run, .hello slot client owner recv env h m read register⟩
  · rintro ⟨ms, v, run, begins⟩
    cases begins with
    | message slot client owner recv => exact .message run slot client owner recv
    | hello slot client owner recv env h m read register =>
      exact .hello run slot client owner recv env h m read register

private theorem rounds_read {n : Nat}
    (h : (decryptMessage c q2 >>= fun _ ↦ parseLoop c q2 n).run w = .ok () w') :
    ∃ cmds m, (readCommands n).run ((w.servers q2).plainMessage c w.msg) = .ok cmds m ∧
      (forM cmds (exec c q2)).run { w with msg := m, trace := w.deciphering q2 ++ w.trace } =
        .ok () w' := by
  obtain ⟨_, w₁, h₁, h⟩ := run_bind_ok h
  obtain ⟨_, rfl⟩ := decryptMessage_ok h₁
  exact (parseLoop_splits c q2 n _ _ _).mp h

/-- Every state between two commands has its history. -/
theorem Reached.heard (h : Reached c rows listener junk w) :
    ∃ history, Heard c rows listener junk history w := by
  cases h with
  | loop run => exact ⟨_, .loop run⟩
  | rounds call n run =>
    obtain ⟨ms, v, hrun, begins⟩ := parseCall_iff.mp call
    obtain ⟨cmds, m, read, _⟩ := rounds_read run
    exact ⟨_, .rounds hrun begins n read run⟩

private theorem Begins.sight (h : Begins c q2 v w) (s : Fin N) :
    (w.servers s).sight = (v.servers s).sight := by
  cases h with
  | message slot client owner recv => rfl
  | hello slot client owner recv env h m read register =>
    cases hkey : World.serverOfKey { v.receiving recv v.scan with msg := m } h.key with
    | none =>
      rw [registerHello_unknown hkey] at register
      cases register
    | some q =>
      have hsame := congrArg Appearance.sight (appearance_registerHello hkey register s)
      exact hsame

/-- What is seen of a server is what its commands have made of it. -/
theorem Heard.sight {history : Fin N → List Command} (h : Heard c rows listener junk history w)
    (s : Fin N) : (w.servers s).sight = Sight.fresh.after (history s) := by
  cases h with
  | loop run => exact run_sight run s
  | @rounds ms q2 v w₀ _ run begins n cmds m read rounds =>
    obtain ⟨cmds', m', read', hexec⟩ := rounds_read rounds
    rw [read] at read'
    cases read'
    have hmessage := sight_execAll (s := s) hexec
    have hbefore : (World.servers { w₀ with msg := m, trace := w₀.deciphering q2 ++ w₀.trace }
        s).sight = (v.servers s).sight := begins.sight s
    have hrun : (v.servers s).sight = Sight.fresh.after
        (heardIn c s ms (initial rows listener junk)) := run_sight run s
    rw [hmessage, hbefore, hrun, ← Sight.after_append]

/-- `BuildTeleportServers` stores nothing outside `players`: neither in a call, nor in the round for
any server, whatever the text so far is and whatever `va` has written before. -/
structure World.TeleportBounded (w : World N) : Prop where
  call : ∀ w', buildTeleportServers.run w ≠ .error .overwrite w'
  round : ∀ (q2 : Fin N) (str : CharPtr) (v : World N), v.servers = w.servers →
    ∀ v', (teleportServer str q2).run v ≠ .error .overwrite v'

/-- The player whom commands have entered in a slot last. -/
def seatedIn (cmds : List Command) (i : UInt8) : Player :=
  (cmds.filterMap (Command.entry i)).getLast?.getD Player.zero

/-- The commands of a server leave its counter of players above zero, and the names in the slots
below it, each with a comma and a space, shorter than `players`. -/
structure Seats (cmds : List Command) : Prop where
  players : 1 ≤ (cmds.foldl Command.onCount 0).toNat
  names : ((List.range (cmds.foldl Command.onCount 0).toNat).flatMap fun i ↦
    (seatedIn cmds i.toUInt8).nameStr ++ ascii ", ").length < teleportPlayersSize

private theorem seated_iff {s : Q2Server} {cmds : List Command}
    (h : s.sight = Sight.fresh.after cmds) : s.Seated ↔ Seats cmds := by
  have hcount : s.playercount = cmds.foldl Command.onCount 0 :=
    (congrArg (fun v : Sight ↦ v.table.playercount) h).trans
      (Sight.fresh.after_playercount cmds)
  have hplayers (i : UInt8) : s.players i = seatedIn cmds i :=
    (congrArg (fun v : Sight ↦ v.table.players i) h).trans (Sight.fresh.after_players cmds i)
  have hentries : s.nameEntry = fun i ↦ (seatedIn cmds i.toUInt8).nameStr ++ ascii ", " := by
    funext i
    unfold Q2Server.nameEntry
    rw [hplayers]
  constructor
  · rintro ⟨hone, hnames⟩
    rw [hcount] at hone hnames
    rw [hentries] at hnames
    exact ⟨hone, hnames⟩
  · rintro ⟨hone, hnames⟩
    rw [← hcount] at hone hnames
    rw [← hentries] at hnames
    exact ⟨hone, hnames⟩

private theorem teleportServers_bounded {servers : Fin N → Q2Server} {l : List (Fin N)}
    (hround : ∀ (q2 : Fin N) (str : CharPtr) (v : World N), v.servers = servers →
      ∀ v', (teleportServer str q2).run v ≠ .error .overwrite v')
    (str : CharPtr) (hv : v.servers = servers) (v' : World N) :
    (l.foldlM teleportServer str).run v ≠ .error .overwrite v' := by
  induction l generalizing str v with
  | nil => nofun
  | cons q2 l ih =>
    rw [List.foldlM_cons]
    intro hrun
    rcases run_bind_error hrun with herror | ⟨str', v₁, hok, hrest⟩
    · exact hround q2 str v hv v' herror
    · exact ih str' (((keeps_teleportServer (fun _ _ _ ↦ rfl) str q2).ok hok).trans hv) hrest

/-- Between two commands the list is built within bounds exactly if the commands that have been
heard of each trusted server leave it a player, and names that fit. -/
theorem teleportBounded_iff {history : Fin N → List Command}
    (h : Heard c rows listener junk history w) :
    w.TeleportBounded ↔ ∀ s, (w.servers s).trusted = true → Seats (history s) := by
  have hseated (s : Fin N) := seated_iff (h.sight s)
  constructor
  · intro hbounded s ht
    by_contra hno
    obtain ⟨w', hrun⟩ := (teleportServer_overwrite_iff s (.fixed (ascii "\n")) w).mpr
      ⟨ht, (hseated s).not.mpr hno⟩
    exact hbounded.round s _ w rfl w' hrun
  · intro hall
    have hround (q2 : Fin N) (str : CharPtr) (v : World N) (hv : v.servers = w.servers)
        (v' : World N) : (teleportServer str q2).run v ≠ .error .overwrite v' := by
      intro hrun
      obtain ⟨ht, hno⟩ := (teleportServer_overwrite_iff q2 str v).mp ⟨v', hrun⟩
      rw [hv] at ht hno
      exact hno ((hseated q2).mpr (hall q2 ht))
    exact ⟨teleportServers_bounded hround _ rfl, hround⟩

-- A server is verified, and a player comes.
private def sampleSeated : List Move :=
  sampleSession ++ [.poll [4], .skip, .receiving [3, 7, 92, 110, 97, 109, 101, 92, 65, 0]
    (by decide)]

/-- A server is trusted, and has a player. -/
theorem teleportBounded_sample : ∃ w : World 1, (w.servers 0).trusted = true ∧
    (w.servers 0).playercount = 1 ∧ w.TeleportBounded := by
  have h : (follow (step Crypto.clear) Unguarded sampleSeated sampleStart).any
      (fun w ↦ (w.servers 0).trusted && (w.servers 0).playercount == 1) = true := by
    decide +kernel
  obtain ⟨w, hrun, hw⟩ := Run.exists_of_follow h
  obtain ⟨ht, hone⟩ := Bool.and_eq_true_iff.mp hw
  have hheard : Seats (heardIn Crypto.clear 0 sampleSeated sampleStart) :=
    ⟨by decide +kernel, by decide +kernel⟩
  refine ⟨w, ht, beq_iff_eq.mp hone, (teleportBounded_iff (.loop hrun)).mpr fun s _ ↦ ?_⟩
  rw [Subsingleton.elim s 0]
  exact hheard

/-- A server that has just been verified has no player, and the index of the last two bytes wraps
around. -/
theorem empty_server_underflows :
    ¬ ∀ (ms : List Move) (w : World 1), Run (step Crypto.clear) Unguarded ms sampleStart w →
      w.TeleportBounded := by
  have h : (follow (step Crypto.clear) Unguarded sampleSession sampleStart).any
      (fun w ↦ (w.servers 0).trusted && (w.servers 0).playercount == 0) = true := by
    decide +kernel
  obtain ⟨w, hrun, hw⟩ := Run.exists_of_follow h
  obtain ⟨ht, hzero⟩ := Bool.and_eq_true_iff.mp hw
  intro hall
  have hempty : ¬ (w.servers 0).Seated := by
    rintro ⟨hone, _⟩
    rw [beq_iff_eq.mp hzero] at hone
    exact absurd hone (by decide)
  obtain ⟨w', hover⟩ := (teleportServer_overwrite_iff 0 (.fixed (ascii "\n")) w).mpr ⟨ht, hempty⟩
  exact (hall _ w hrun).round 0 _ w rfl w' hover

end Q2Admin
