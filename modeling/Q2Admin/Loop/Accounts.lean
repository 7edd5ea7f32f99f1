import Q2Admin.Loop.FreshStart

/-!
# What a server has reported

Library `Q2Admin.Loop`. Source `server.c:116–137`, `server.c:508–544` and `parse.c:7–68`. The
abstract model of a record keeps an account of its server: what the database says about it, what
its last HELLO says, and what its commands have told. `account_of_reports`: in every history a
record agrees with the account of what its own server has reported, in whatever way the reports of
others, the ends of connections and the failures of handshakes come in between.
-/

namespace Q2Admin

open Exec

variable {N : Nat}

/-- The account of a server. -/
structure Account where
  id : UInt32
  key : UInt32
  flags : UInt32
  name : Field 50
  ip : Field 16
  enabled : Bool
  port : UInt16
  maxclients : UInt8
  encrypted : Bool
  sight : Sight

/-- What a server reports. -/
inductive Report
  | hello (h : Hello)
  | command (cmd : Command)

namespace Account

/-- The account of a server that has not reported yet. -/
def ofRow (r : Row) : Account :=
  { id := r.id, key := r.key, flags := r.flags, name := strncpy 50 r.name, ip := strncpy 16 r.ip
    enabled := r.enabled, port := r.port, maxclients := 0, encrypted := false, sight := .fresh }

/-- Enter what a HELLO says. -/
def greet (a : Account) (h : Hello) : Account :=
  { a with port := h.port, maxclients := h.maxClients, encrypted := h.encrypted ≠ 0 }

/-- Enter a report. -/
def enter (a : Account) : Report → Account
  | .hello h => a.greet h
  | .command cmd => { a with sight := cmd.onSight a.sight }

/-- Enter reports in order. -/
def after (a : Account) (reports : List Report) : Account := reports.foldl enter a

/-- What is reported in two parts is entered one part after the other. -/
theorem after_append (a : Account) (reports reports' : List Report) :
    a.after (reports ++ reports') = (a.after reports).after reports' := List.foldl_append

/-- Commands are entered in what is seen of the server. -/
theorem after_commands (a : Account) (cmds : List Command) :
    a.after (cmds.map .command) = { a with sight := a.sight.after cmds } := by
  induction cmds generalizing a with
  | nil => rfl
  | cons cmd cmds ih => exact ih _

/-- An account apart from what commands tell. -/
def untold (a : Account) : Account := { a with sight := .fresh }

private theorem ext_untold {a a' : Account} (huntold : a.untold = a'.untold)
    (hsight : a.sight = a'.sight) : a = a' :=
  calc a = { a.untold with sight := a.sight } := rfl
    _ = { a'.untold with sight := a'.sight } := by rw [huntold, hsight]

end Account

/-- The account that a record gives of its server. -/
def Q2Server.account (s : Q2Server) : Account :=
  { id := s.id, key := s.key, flags := s.flags, name := s.name, ip := s.ip, enabled := s.enabled
    port := s.port, maxclients := s.maxclients, encrypted := s.connection.encrypted
    sight := s.sight }

/-- A record apart from what commands tell and from its connection. -/
def Q2Server.untold (s : Q2Server) : Account := s.account.untold

/-- A record that has just been loaded gives the account of its row. -/
theorem account_load (r : Row) : r.load.account = .ofRow r := rfl

section Steps

variable {c : Crypto} {s q2 : Fin N} {w w' : World N}

private theorem keeps_untold_assign (s q : Fin N) {f : Q2Server → Q2Server}
    (hf : ∀ r, (f r).untold = r.untold) :
    Keeps (fun w ↦ (w.servers s).untold) (modifyServer q f) := keeps_modifyServer q s hf

private theorem Change.untold {P : Fin N → Prop} {S : Prop} (h : Change c q2 P S w w')
    (s : Fin N) : (w'.servers s).untold = (w.servers s).untold := by
  cases h with
  | write _ m _ =>
    exact keeps_untold_assign s _ (f := fun r ↦ { r with msg := m }) (fun _ ↦ rfl) w
  | send =>
    exact keeps_send c (fun _ _ ↦ keeps_server_logEvent _ s)
      (fun _ _ _ ↦ keeps_server_logEvent _ s) (keeps_untold_assign s _ fun _ ↦ rfl) w
  | format => rfl
  | ping count =>
    exact keeps_untold_assign s q2 (f := fun r ↦
      { r with connection := { r.connection with pingCount := count } }) (fun _ ↦ rfl) w
  | tell t =>
    exact keeps_untold_assign s q2 (f := fun r ↦
      { r with players := t.players, playercount := t.playercount, map := t.map })
      (fun _ ↦ rfl) w
  | check _ cipher =>
    exact keeps_check c cipher (fun _ _ ↦ keeps_server_logEvent _ s)
      (fun _ ↦ keeps_server_logEvent _ s) (fun _ ↦ keeps_server_createHandle q2 _ s)
      (fun f hf ↦ keeps_untold_assign s q2 fun r ↦ (congrArg Q2Server.untold (hf r) :)) w
  | close =>
    exact keeps_close (fun _ _ ↦ keeps_server_logEvent _ s) (fun _ ↦ keeps_server_logEvent _ s)
      (keeps_untold_assign s q2 fun _ ↦ rfl)
      (keeps_removeServerSocket (v := Q2Server.untold) (fun _ _ ↦ rfl) s) w

private theorem untold_execAll {cmds : List Command}
    (h : (forM cmds (exec c q2)).run w = .ok () w') (s : Fin N) :
    (w'.servers s).untold = (w.servers s).untold :=
  ((moves_execAll c q2 (P := fun _ ↦ True) (fun _ ↦ trivial) trivial cmds).keeps
    fun _ _ hc ↦ hc.untold s).ok h

private theorem account_execAll {cmds : List Command}
    (h : (forM cmds (exec c q2)).run w = .ok () w') :
    (w'.servers s).account =
      (w.servers s).account.after ((heardOf s (some (q2, cmds))).map .command) := by
  rw [Account.after_commands]
  exact Account.ext_untold (untold_execAll h s) (sight_execAll h)

private theorem account_greeting {env : Answer} {i : Nat} {h : Hello} {m : MsgBuffer}
    {found : Option (Fin N)} (greeting : w.greeting env i = some (q2, h, m))
    (register : (registerHello c env.hello i h).run { w.receiving env.recv i with msg := m } =
      .ok found w') : (w'.servers s).account =
        (w.servers s).account.after (if s = q2 then [.hello h] else []) := by
  refine Account.ext_untold ?_ ?_
  · have hkey : World.serverOfKey { w.receiving env.recv i with msg := m } h.key = some q2 :=
      (greeting_some greeting).2
    obtain ⟨_, _, plain, rfl, _⟩ := registerHello_ok hkey register
    by_cases hs : s = q2
    · subst hs
      rw [World.posted_self, World.replying_self, if_pos rfl]
      dsimp only
      split <;> rfl
    · rw [World.posted_of_ne _ _ _ hs, World.replying_of_ne _ _ _ _ hs, if_neg hs]
      rfl
  · have hsame := sight_greeting greeting register s
    by_cases hs : s = q2
    · rw [if_pos hs]
      exact hsame
    · rw [if_neg hs]
      exact hsame

/-- What a server reports while a slot is served: its HELLO, and the commands that are heard. -/
def World.reports (c : Crypto) (s : Fin N) (w : World N) (env : Answer) (i : Nat) : List Report :=
  (match w.greeting env i with
    | some (q2, h, _) => if s = q2 then [.hello h] else []
    | none => []) ++ (heardOf s (w.heard c env i)).map .command

private theorem account_turn {env : Answer} {i : Nat} (h : Turn c env i w w') (s : Fin N) :
    (w'.servers s).account = (w.servers s).account.after (w.reports c s env i) := by
  have hindex (r : Q2Server) (i : Nat) : Q2Server.account { r with index := i } = r.account := rfl
  have hsilent (greeting : w.greeting env i = none) (heard : w.heard c env i = none)
      (hsame : (w'.servers s).account = (w.servers s).account) :
      (w'.servers s).account = (w.servers s).account.after (w.reports c s env i) := by
    unfold World.reports
    rw [greeting, heard, hsame]
    rfl
  cases h with
  | idle same slot =>
    obtain ⟨greeting, heard⟩ := silent_of_not_client c env slot
    exact hsilent greeting heard (congrArg (fun w : World N ↦ (w.servers s).account) same)
  | accept fd _ slot _ run =>
    obtain ⟨greeting, heard⟩ := silent_of_not_client c env fun hs ↦ hs.2 slot
    cases run
    exact hsilent greeting heard rfl
  | hangUp q2 _ owner ended run =>
    have hkept := (keeps_server_hangUp hindex (fun _ ↦ rfl) s q2 i).ok run
    exact hsilent (greeting_of_owner owner) (heard_of_ended owner ended) hkept
  | peer request m slot owner read run =>
    have greeting := greeting_of_peer slot owner read
    exact hsilent greeting (heard_of_stranger owner greeting)
      (((keeps_server_peer hindex c s i request).ok run).trans rfl)
  | stranger m _ owner unknown run =>
    exact hsilent unknown (heard_of_stranger owner unknown)
      (((keeps_server_turnAway hindex s i).ok run).trans rfl)
  | message q2 cmds m _ owner heard run =>
    unfold World.reports
    rw [greeting_of_owner owner, heard]
    exact (account_execAll run).trans rfl
  | refused q2 h m w₁ _ owner greeting silent register run =>
    unfold World.reports
    rw [greeting, heard_of_silent owner greeting silent, heardOf, List.map_nil, List.append_nil]
    exact ((keeps_server_turnAway hindex s i).ok run).trans (account_greeting greeting register)
  | hello q2 h m w₁ cmds m' _ _ greeting _ heard register run =>
    unfold World.reports
    rw [greeting, heard, Account.after_append]
    dsimp only
    rw [← account_greeting greeting register]
    exact (account_execAll run).trans rfl

/-- What a server reports in a step. -/
def moveReports (c : Crypto) (s : Fin N) : Move → World N → List Report
  | .poll _, _ => []
  | .serve env, w => w.reports c s env w.scan

/-- What a server reports in a history, in order. -/
def reportsIn (c : Crypto) (s : Fin N) : List Move → World N → List Report
  | [], _ => []
  | m :: ms, w => moveReports c s m w ++ (step c m w).elim [] (reportsIn c s ms)

/-- A step enters what the server has reported in it. -/
theorem account_step {m : Move} (h : step c m w = some w') (s : Fin N) :
    (w'.servers s).account = (w.servers s).account.after (moveReports c s m w) := by
  cases m with
  | poll ready =>
    rw [step_poll h]
    rfl
  | serve env =>
    obtain ⟨w₁, hturn, rfl⟩ := step_turn h
    exact account_turn hturn s

end Steps

/-- In every state that is reached, a record gives the account of what its server has reported:
what the database says about it is never written, the port, the number of players and the wish
for encryption are those of its last HELLO, whether it has been answered or not, and the rest is
what its own commands have told. -/
theorem account_of_reports {c : Crypto} {rows : Fin N → Row} {listener : Nat}
    {junk : Nat → PollFd} {ms : List Move} {w : World N}
    (hrun : Run (step c) Unguarded ms (initial rows listener junk) w) (s : Fin N) :
    (w.servers s).account =
      (Account.ofRow (rows s)).after (reportsIn c s ms (initial rows listener junk)) := by
  rw [← account_load]
  change _ = ((initial rows listener junk).servers s).account.after _
  generalize initial rows listener junk = start at hrun
  induction hrun with
  | nil w => rfl
  | @cons m ms w w₁ w₂ _ hs _ ih =>
    have hcons : reportsIn c s (m :: ms) w = moveReports c s m w ++ reportsIn c s ms w₁ := by
      rw [reportsIn, hs, Option.elim_some]
    rw [ih, account_step hs, hcons, Account.after_append]

-- A server says HELLO, and a player connects to it.
private def sampleReports : List Move :=
  sampleBound ++ [.receiving [3, 7, 92, 110, 97, 109, 101, 92, 66, 0] (by decide)]

/-- A HELLO and a player are entered in the account of their server. -/
theorem account_of_reports_sample :
    ∃ w : World 1, (w.servers 0).maxclients = 8 ∧ (w.servers 0).playercount = 1 := by
  have h : (follow (step Crypto.clear) Unguarded sampleReports sampleStart).any
      (fun _ ↦ true) = true := by decide +kernel
  obtain ⟨w, hrun, _⟩ := Run.exists_of_follow h
  let a := (Account.ofRow ⟨1, 5, 0, ascii "s", ascii "h", 27910, true⟩).after
    (reportsIn Crypto.clear 0 sampleReports sampleStart)
  have hreports : a.maxclients = 8 ∧ a.sight.table.playercount = 1 := by decide +kernel
  have haccount : (w.servers 0).account = a := account_of_reports hrun 0
  rw [← haccount] at hreports
  exact ⟨w, hreports⟩

/-- A key belongs to the same server in every state that is reached: the first one with it that has
been loaded. -/
theorem serverOfKey_reached {c : Crypto} {rows : Fin N → Row} {listener : Nat}
    {junk : Nat → PollFd} {ms : List Move} {w : World N}
    (hrun : Run (step c) Unguarded ms (initial rows listener junk) w) (key : UInt32) :
    w.serverOfKey key = (serverList N).find? fun s ↦ key = (rows s).key := by
  have hafter (a : Account) (reports : List Report) : (a.after reports).key = a.key := by
    induction reports generalizing a with
    | nil => rfl
    | cons r reports ih =>
      change ((a.enter r).after reports).key = _
      rw [ih]
      cases r <;> rfl
  have hkey (s : Fin N) : (w.servers s).key = (rows s).key := by
    have haccount := congrArg Account.key (account_of_reports hrun s)
    rw [hafter] at haccount
    exact haccount
  unfold World.serverOfKey
  simp only [hkey]

end Q2Admin
