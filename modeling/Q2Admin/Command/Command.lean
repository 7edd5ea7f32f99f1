import Q2Admin.Command.Detached

/-!
# Commands

Library `Q2Admin.Command`. A message is decoded into a list of commands, and the list is
executed. `parseLoop_splits` connects this to the loop of `ParseMessage`, which decodes
and executes by turns: a run of the loop that returns has decoded all its commands before
it could have executed any of them.
-/

namespace Q2Admin

open Exec

variable {N : Nat}

/-- A command with its fields, as the handlers read them. -/
inductive Command
  | auth (cipher : List UInt8)
  | quit
  | ping
  | print (level : UInt8) (text : List UInt8)
  | teleport (clientId : UInt8) (location : List UInt8)
  | invite (clientId : UInt8) (text : List UInt8)
  /-- The whois command and the kinds that do not exist. -/
  | command (kind : UInt8)
  | connect (clientId : UInt8) (userinfo : List UInt8)
  | playerUpdate (clientId : UInt8) (userinfo : List UInt8)
  | disconnect (clientId : UInt8)
  | playerList (count : UInt8) (entries : List (UInt8 × List UInt8))
  | map (name : List UInt8)
  /-- A byte that the loop skips. -/
  | other (cmd : UInt8)
  deriving DecidableEq

/-- The entries of a PLAYERLIST. The loop counts with the variable that it reads the ids
into. -/
def readEntries (count : UInt8) : Nat → UInt8 → BufM (List (UInt8 × List UInt8))
  | 0, _ => throw .overread
  | fuel + 1, i =>
    if i < count then do
      let clientId ← msgReadByte
      let userinfo ← msgReadString
      let rest ← readEntries count fuel (clientId + 1)
      pure ((clientId, userinfo) :: rest)
    else pure []

/-- The fields behind `CMD_COMMAND`. -/
def readSubcommand : BufM Command := do
  let kind ← msgReadByte
  match CommandKind.ofByte kind with
  | some .teleport => do
    let clientId ← msgReadByte
    let location ← msgReadString
    pure (.teleport clientId location)
  | some .invite => do
    let clientId ← msgReadByte
    let text ← msgReadString
    pure (.invite clientId text)
  | some .whois => pure (.command kind)
  | none => pure (.command kind)

/-- The fields behind a command byte. -/
def readArguments : ClientCmd → BufM Command
  | .auth => do
    let len ← msgReadShort
    let cipher ← msgReadData len.toNat
    pure (.auth cipher.bytes)
  | .quit => pure .quit
  | .ping => pure .ping
  | .print => do
    let level ← msgReadByte
    let text ← msgReadString
    pure (.print level text)
  | .command => readSubcommand
  | .connect => do
    let clientId ← msgReadByte
    let userinfo ← msgReadString
    pure (.connect clientId userinfo)
  | .playerupdate => do
    let clientId ← msgReadByte
    let userinfo ← msgReadString
    pure (.playerUpdate clientId userinfo)
  | .disconnect => do
    let clientId ← msgReadByte
    pure (.disconnect clientId)
  | .playerlist => do
    let count ← msgReadByte
    let entries ← readEntries count msgSpace 0
    pure (.playerList count entries)
  | .map => do
    let name ← msgReadString
    pure (.map name)
  | k => pure (.other k.byte)

/-- The command at the cursor. -/
def readCommand : BufM Command := do
  let cmd ← msgReadByte
  match ClientCmd.ofByte cmd with
  | some k => readArguments k
  | none => pure (.other cmd)

/-- The commands of the first rounds of the loop, this many at most. -/
def readCommands : Nat → BufM (List Command)
  | 0 => pure []
  | n + 1 => do
    let m ← get
    if m.unread then
      let cmd ← readCommand
      let cmds ← readCommands n
      pure (cmd :: cmds)
    else pure []

/-- The entries of a PLAYERLIST one after the other, from the value `i` of the loop
variable on. -/
def execEntries (q2 : Fin N) : UInt8 → List (UInt8 × List UInt8) → M N Unit
  | _, [] => pure ()
  | i, (clientId, userinfo) :: entries => do
    listPlayer q2 i clientId userinfo
    execEntries q2 (clientId + 1) entries

/-- What the handler of a command does behind its readers. -/
def exec (c : Crypto) (q2 : Fin N) : Command → M N Unit
  | .auth cipher => do
    let verified ← checkAnswer c q2 cipher
    concludeAuth c q2 verified
  | .quit => closeConnection q2
  | .ping => pong c q2
  | .print _ _ => pure ()
  | .teleport clientId location => teleport c q2 clientId location
  | .invite clientId text => invite c q2 clientId text
  | .command _ => pure ()
  | .connect clientId userinfo => playerConnect q2 clientId userinfo
  | .playerUpdate clientId userinfo => enterPlayer q2 clientId userinfo
  | .disconnect clientId => playerDisconnect q2 clientId
  | .playerList count entries => do
    modifyServer q2 fun s ↦ { s with playercount := count }
    execEntries q2 0 entries
  | .map name => setMap q2 name
  | .other _ => pure ()

private theorem detached_execEntries (q2 : Fin N) (i : UInt8)
    (entries : List (UInt8 × List UInt8)) : Detached (execEntries q2 i entries) := by
  induction entries generalizing i with
  | nil => exact detached_pure _
  | cons e entries ih =>
    exact detached_bind (detached_listPlayer q2 i e.1 e.2) fun _ ↦ ih (e.1 + 1)

/-- No handler looks at the message or at the events before it. -/
theorem detached_exec (c : Crypto) (q2 : Fin N) (cmd : Command) : Detached (exec c q2 cmd) := by
  cases cmd with
  | auth cipher =>
    exact detached_bind (detached_checkAnswer c q2 cipher) fun _ ↦ detached_concludeAuth c q2 _
  | quit => exact detached_closeConnection q2
  | ping => exact (talks_pong c q2).detached
  | print level text => exact detached_pure _
  | teleport clientId location => exact (talks_teleport c q2 clientId location).detached
  | invite clientId text => exact (talks_invite c q2 clientId text).detached
  | command kind => exact detached_pure _
  | connect clientId userinfo => exact detached_playerConnect q2 clientId userinfo
  | playerUpdate clientId userinfo => exact detached_enterPlayer q2 clientId userinfo
  | disconnect clientId => exact detached_modifyServer q2 _
  | playerList count entries =>
    exact detached_bind (detached_modifyServer q2 _) fun _ ↦ detached_execEntries q2 0 entries
  | map name => exact detached_modifyServer q2 _
  | other cmd => exact detached_pure _

/-- The loop of `ParsePlayerList` with the count that it reads again in every round. -/
def countedLoop (q2 : Fin N) (count : UInt8) : Nat → UInt8 → M N Unit
  | 0, _ => throw .overread
  | fuel + 1, i =>
    if i < count then do
      let clientId ← onMsg msgReadByte
      let userinfo ← onMsg msgReadString
      listPlayer q2 i clientId userinfo
      countedLoop q2 count fuel (clientId + 1)
    else pure ()

private theorem keeps_playercount_onMsg (q2 : Fin N) {α : Type} (x : BufM α) :
    Keeps (fun w : World N ↦ (w.servers q2).playercount) (onMsg x) :=
  keeps_zoom fun _ _ ↦ rfl

private theorem keeps_playercount_listPlayer (q2 : Fin N) (i clientId : UInt8)
    (userinfo : List UInt8) :
    Keeps (fun w : World N ↦ (w.servers q2).playercount) (listPlayer q2 i clientId userinfo) := by
  apply keeps_bind (keeps_modify fun w ↦ by simp [Q2Server.setPlayer])
  intro _
  refine keeps_bind ?_ fun name ↦ keeps_modify fun w ↦ by simp [Q2Server.setPlayer]
  cases infoValueForKey userinfo nameKey with
  | ok name => exact keeps_pure _
  | error e => exact keeps_throw _

/-- The loop of `ParsePlayerList` compares with the count that the record holds. -/
theorem playerListLoop_run {q2 : Fin N} {count : UInt8} (fuel : Nat) {i : UInt8}
    {w : World N} (hcount : (w.servers q2).playercount = count) :
    (playerListLoop q2 fuel i).run w = (countedLoop q2 count fuel i).run w := by
  induction fuel generalizing i w with
  | zero => rfl
  | succ fuel ih =>
    unfold playerListLoop countedLoop
    have hserver : (server q2).run w = .ok (w.servers q2) w := rfl
    rw [run_bind_of_ok hserver, hcount]
    by_cases hi : i < count
    · rw [if_pos hi, if_pos hi]
      refine run_bind_congr fun clientId w₁ h₁ ↦ run_bind_congr fun userinfo w₂ h₂ ↦
        run_bind_congr fun _ w₃ h₃ ↦ ih ?_
      have hc₁ := (keeps_playercount_onMsg q2 _).ok h₁
      have hc₂ := (keeps_playercount_onMsg q2 _).ok h₂
      have hc₃ := (keeps_playercount_listPlayer q2 _ _ _).ok h₃
      rw [hc₃, hc₂, hc₁, hcount]
    · rw [if_neg hi, if_neg hi]

/-- The loop that compares with a given count reads all entries, and then enters them. -/
theorem countedLoop_splits (q2 : Fin N) (count : UInt8) (fuel : Nat) (i : UInt8) :
    Splits inMsg (countedLoop q2 count fuel i) (readEntries count fuel i)
      (execEntries q2 i) := by
  induction fuel generalizing i with
  | zero =>
    intro w _ w'
    constructor
    · intro h
      cases h
    · rintro ⟨_, _, h, _⟩
      cases h
  | succ fuel ih =>
    unfold countedLoop readEntries
    by_cases hi : i < count
    · rw [if_pos hi, if_pos hi]
      refine splits_zoom_bind fun clientId ↦ splits_zoom_bind fun userinfo ↦ ?_
      have hentry := splits_pure inMsg
        (fun e : UInt8 × List UInt8 ↦ listPlayer q2 i e.1 e.2) (clientId, userinfo)
      have hrest := splits_bind hentry (ih (clientId + 1)) fun e ↦
        (detached_listPlayer q2 i e.1 e.2).blind
      intro w _ w'
      rw [hrest w () w']
      simp only [pure_bind]
      constructor
      · rintro ⟨_, m, hr, hex⟩
        obtain ⟨es, _, hr, hp⟩ := run_bind_ok hr
        cases hp
        exact ⟨(clientId, userinfo) :: es, m, by rw [run_bind_of_ok hr]; rfl, hex⟩
      · rintro ⟨_, m, hr, hex⟩
        obtain ⟨es, _, hr, hp⟩ := run_bind_ok hr
        cases hp
        exact ⟨((clientId, userinfo), es), m, by rw [run_bind_of_ok hr]; rfl, hex⟩
    · rw [if_neg hi, if_neg hi]
      exact splits_pure inMsg (execEntries q2 i) []

private theorem parsePlayerList_splits (c : Crypto) (q2 : Fin N) :
    Splits inMsg (parsePlayerList q2) (do
      let count ← msgReadByte
      let entries ← readEntries count msgSpace 0
      pure (Command.playerList count entries)) (exec c q2) := by
  refine splits_zoom_bind fun count ↦ ?_
  intro w _ w'
  have hmod : (modifyServer q2 fun s ↦ { s with playercount := count }).run w =
      .ok () (w.updateServer q2 fun s ↦ { s with playercount := count }) := rfl
  have hcount : ((w.updateServer q2 fun s ↦ { s with playercount := count }).servers
      q2).playercount = count := by simp
  rw [run_bind_of_ok hmod, playerListLoop_run msgSpace hcount,
    countedLoop_splits q2 count msgSpace 0 _ () w']
  constructor
  · rintro ⟨es, m, hr, hex⟩
    refine ⟨.playerList count es, m, ?_, hex⟩
    have hr' : (readEntries count msgSpace 0).run w.msg = .ok es m := hr
    exact (run_bind_of_ok hr').trans rfl
  · rintro ⟨_, m, hr, hex⟩
    obtain ⟨es, _, hr', hp⟩ := run_bind_ok hr
    cases hp
    exact ⟨es, m, hr', hex⟩

private theorem parseCommand_splits (c : Crypto) (q2 : Fin N) :
    Splits inMsg (parseCommand c q2) readSubcommand (exec c q2) := by
  apply splits_zoom_bind
  intro kind
  cases CommandKind.ofByte kind with
  | none => exact splits_pure inMsg (exec c q2) (.command kind)
  | some k =>
    cases k with
    | teleport =>
      exact splits_zoom_bind fun clientId ↦ splits_zoom_bind fun location ↦
        splits_pure inMsg (exec c q2) (.teleport clientId location)
    | invite =>
      exact splits_zoom_bind fun clientId ↦ splits_zoom_bind fun text ↦
        splits_pure inMsg (exec c q2) (.invite clientId text)
    | whois => exact splits_pure inMsg (exec c q2) (.command kind)

private theorem parseAuth_splits (c : Crypto) (q2 : Fin N) :
    Splits inMsg (parseAuth c q2) (do
      let len ← msgReadShort
      let cipher ← msgReadData len.toNat
      pure (Command.auth cipher.bytes)) (exec c q2) := by
  unfold parseAuth verifyClientChallenge
  simp only [bind_assoc]
  exact splits_zoom_bind fun len ↦ splits_zoom_bind fun cipher ↦
    splits_pure inMsg (exec c q2) (.auth cipher.bytes)

/-- A round of the loop decodes a command and executes it. -/
theorem parseNext_splits (c : Crypto) (q2 : Fin N) :
    Splits inMsg (parseNext c q2) readCommand (exec c q2) := by
  apply splits_zoom_bind
  intro cmd
  cases ClientCmd.ofByte cmd with
  | none => exact splits_pure inMsg (exec c q2) (.other cmd)
  | some k =>
    have hother : Splits inMsg (pure () : M N Unit) (pure (.other k.byte)) (exec c q2) :=
      splits_pure inMsg (exec c q2) (.other k.byte)
    cases k with
    | null => exact hother
    | hello => exact hother
    | players => exact hother
    | frag => exact hother
    | quit => exact splits_pure inMsg (exec c q2) .quit
    | ping => exact splits_pure inMsg (exec c q2) .ping
    | auth => exact parseAuth_splits c q2
    | command => exact parseCommand_splits c q2
    | playerlist => exact parsePlayerList_splits c q2
    | connect =>
      exact splits_zoom_bind fun clientId ↦ splits_zoom_bind fun userinfo ↦
        splits_pure inMsg (exec c q2) (.connect clientId userinfo)
    | playerupdate =>
      exact splits_zoom_bind fun clientId ↦ splits_zoom_bind fun userinfo ↦
        splits_pure inMsg (exec c q2) (.playerUpdate clientId userinfo)
    | disconnect =>
      exact splits_zoom_bind fun clientId ↦
        splits_pure inMsg (exec c q2) (.disconnect clientId)
    | print =>
      exact splits_zoom_bind fun level ↦ splits_zoom_bind fun text ↦
        splits_pure inMsg (exec c q2) (.print level text)
    | map =>
      exact splits_zoom_bind fun name ↦ splits_pure inMsg (exec c q2) (.map name)

/-- The loop of `ParseMessage`, as far as it returns, decodes its message and executes the
commands. -/
theorem parseLoop_splits (c : Crypto) (q2 : Fin N) (n : Nat) :
    Splits inMsg (parseLoop c q2 n) (readCommands n) fun cmds ↦ forM cmds (exec c q2) := by
  induction n with
  | zero => exact splits_pure inMsg (fun cmds ↦ forM cmds (exec c q2)) []
  | succ n ih =>
    have hnext : Splits inMsg (parseNext c q2 >>= fun _ ↦ parseLoop c q2 n)
        (do let cmd ← readCommand; let cmds ← readCommands n; pure (cmd :: cmds))
        fun cmds ↦ forM cmds (exec c q2) := by
      have h := splits_bind (parseNext_splits c q2) ih fun cmd ↦ (detached_exec c q2 cmd).blind
      have hcons := splits_congr (g := fun p : Command × List Command ↦ p.1 :: p.2)
        (k := fun cmds ↦ forM cmds (exec c q2)) (by simpa only [List.forM_cons] using h)
      simpa only [bind_assoc, pure_bind] using hcons
    intro w _ w'
    unfold parseLoop readCommands
    rw [run_bind_of_ok (EStateM.run_get w)]
    have hget : (get : BufM MsgBuffer).run (inMsg.get w) = .ok w.msg w.msg := rfl
    rw [run_bind_of_ok hget]
    by_cases hu : w.msg.unread = true
    · rw [if_pos hu, if_pos hu]
      exact hnext w () w'
    · rw [if_neg hu, if_neg hu]
      exact splits_pure inMsg (fun cmds ↦ forM cmds (exec c q2)) [] w () w'

end Q2Admin
