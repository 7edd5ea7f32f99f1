import Q2Admin.Session.Machine
import Q2Admin.Command.Handlers

/-!
# What commands do to sessions

Library `Q2Admin.Session`. `World.core` projects a state of the process to a state of the
session machine. Talking does not show in it, closing a connection is `Core.close`, and a
successful AUTH is `Core.grant`; `core_execAll` sums this up for the commands of a
message.
-/

namespace Q2Admin

open Exec

variable {N : Nat} {α ν : Type}

/-- What the event loop knows of a server. -/
def Q2Server.record (s : Q2Server) : Record :=
  ⟨s.index, s.connected, s.socket, s.key, s.port, s.maxclients, s.trusted⟩

/-- The session machine's view of a state. -/
def World.core (w : World N) : Core N where
  listener := w.listener
  fds i := (w.sockets i).fd
  count := w.socketCount
  records s := (w.servers s).record
  trace := w.trace.filter Event.isSession

private theorem core_stable (w : World N) : w.stable.core = w.core := by
  have h : (w.trace.filter Event.isSession).filter Event.isSession =
      w.trace.filter Event.isSession := by
    rw [List.filter_filter]
    simp only [Bool.and_self]
  exact congrArg (fun t ↦ { w.core with trace := t }) h

/-- Talking does not show in the sessions. -/
theorem Talks.keeps_core {x : M N α} (h : Talks x) : Keeps World.core x := fun w ↦ by
  rw [← core_stable, h.keeps w, core_stable]

/-- An update of a record shows in the machine as an update of its session part. -/
theorem core_updateServer (w : World N) (q2 : Fin N) {f : Q2Server → Q2Server}
    {g : Record → Record} (h : (f (w.servers q2)).record = g (w.servers q2).record) :
    (w.updateServer q2 f).core = w.core.updateRecord q2 g := by
  have hr : (fun s ↦ ((w.updateServer q2 f).servers s).record) =
      Function.update w.core.records q2 (g (w.core.records q2)) := by
    funext s
    by_cases hs : s = q2
    · subst hs
      rw [World.updateServer_self, Function.update_self, h]
      rfl
    · rw [World.updateServer_of_ne _ _ hs, Function.update_of_ne hs]
      rfl
  exact congrArg (fun r ↦ { w.core with records := r }) hr

/-- Assignments that do not show in the record. -/
theorem core_assign (w : World N) (q2 : Fin N) {f : Q2Server → Q2Server}
    (hf : ∀ s, (f s).record = s.record) : (w.updateServer q2 f).core = w.core := by
  rw [core_updateServer w q2 (g := id) (hf _)]
  exact congrArg (fun r ↦ { w.core with records := r }) (Function.update_eq_self q2 _)

private theorem keeps_core_modifyServer (q2 : Fin N) {f : Q2Server → Q2Server}
    (hf : ∀ s, (f s).record = s.record) : Keeps World.core (modifyServer q2 f) :=
  keeps_modify fun w ↦ core_assign w q2 hf

/-- An event of sessions is noted in the machine. -/
theorem core_log (w : World N) {e : Event} (he : e.isSession = true) :
    { w with trace := e :: w.trace }.core = w.core.log e :=
  congrArg (fun t ↦ { w.core with trace := t }) (List.filter_cons_of_pos he)

/-- Other events are not noted in the machine. -/
theorem core_unlogged (w : World N) {e : Event} (he : e.isSession = false) :
    { w with trace := e :: w.trace }.core = w.core :=
  congrArg (fun t ↦ { w.core with trace := t })
    (List.filter_cons_of_neg (by rw [he]; exact Bool.false_ne_true))

/-- Entering a descriptor into a slot of the poll table. -/
theorem fd_update (t : Nat → PollFd) (i fd : Nat) :
    (fun j ↦ (Function.update t i { t i with fd := fd, events := true } j).fd) =
      Function.update (fun j ↦ (t j).fd) i fd := by
  funext j
  by_cases hj : j = i
  · rw [hj, Function.update_self, Function.update_self]
  · rw [Function.update_of_ne hj, Function.update_of_ne hj]

private theorem listServer_run (i : Nat) (q2 : Fin N) (w : World N) :
    ∃ w', (listServer i q2).run w = .ok (Core.place (i, w.core) q2).1 w' ∧
      w'.core = (Core.place (i, w.core) q2).2 := by
  unfold Core.place
  have hserver : (server q2).run w = .ok (w.servers q2) w := rfl
  by_cases hc : (w.servers q2).connected = true
  · dsimp only
    rw [if_pos (show (w.core.records q2).connected = true from hc)]
    let w₁ : World N :=
      { w with
        sockets := Function.update w.sockets i
          { w.sockets i with fd := (w.servers q2).socket, events := true } }
    have hw₁ : w₁.core =
        { w.core with fds := Function.update w.core.fds i (w.core.records q2).socket } :=
      congrArg (fun f ↦ { w.core with fds := f }) (fd_update w.sockets i _)
    refine ⟨w₁.updateServer q2 fun s ↦ { s with index := i }, ?_, ?_⟩
    · unfold listServer
      rw [run_bind_of_ok hserver, if_neg (by simp [hc])]
      rfl
    · rw [core_updateServer w₁ q2 (g := fun r ↦ { r with index := i }) rfl, hw₁]
      rfl
  · dsimp only
    rw [if_neg (show ¬ (w.core.records q2).connected = true from hc)]
    refine ⟨w, ?_, rfl⟩
    unfold listServer
    rw [run_bind_of_ok hserver, if_pos (by simp [hc])]
    rfl

private theorem foldlM_listServer_run (l : List (Fin N)) (i : Nat) (w : World N) :
    ∃ w', (l.foldlM listServer i).run w = .ok (l.foldl Core.place (i, w.core)).1 w' ∧
      w'.core = (l.foldl Core.place (i, w.core)).2 := by
  induction l generalizing i w with
  | nil => exact ⟨w, rfl, rfl⟩
  | cons q2 l ih =>
    obtain ⟨w₁, h₁, hc₁⟩ := listServer_run i q2 w
    obtain ⟨w₂, h₂, hc₂⟩ := ih (Core.place (i, w.core) q2).1 w₁
    rw [hc₁] at h₂ hc₂
    refine ⟨w₂, ?_, hc₂⟩
    rw [List.foldlM_cons, run_bind_of_ok h₁]
    exact h₂

/-- `remove_server_socket` rebuilds the table. -/
theorem core_removeServerSocket (w : World N) :
    ∃ w', removeServerSocket.run w = .ok () w' ∧ w'.core = w.core.rebuild := by
  obtain ⟨w', h, hc⟩ := foldlM_listServer_run (List.finRange N) 1 w
  refine ⟨{ w' with socketCount := ((List.finRange N).foldl Core.place (1, w.core)).1 }, ?_, ?_⟩
  · unfold removeServerSocket serverList
    rw [run_bind_of_ok h]
    rfl
  · exact congrArg (fun k : Core N ↦
      { k with count := ((List.finRange N).foldl Core.place (1, w.core)).1 }) hc

/-- `CloseConnection` closes the session. -/
theorem core_closeConnection (q2 : Fin N) (w : World N) :
    ∃ w', (closeConnection q2).run w = .ok () w' ∧ w'.core = w.core.close q2 := by
  have hquiet (cell : Cell) (h : Option Nat) (t : List Event) :
      (World.releasing q2 cell h ++ t).filter Event.isSession = t.filter Event.isSession := by
    cases h with
    | none => rfl
    | some h => exact List.filter_cons_of_neg Bool.false_ne_true
  have htrace : (w.closing q2).trace.filter Event.isSession =
      .closed (w.servers q2).socket :: w.trace.filter Event.isSession := by
    change (Event.closed _ :: _).filter Event.isSession = _
    rw [List.filter_cons_of_pos rfl, hquiet, hquiet, hquiet]
  let w₁ : World N := { w with trace := (w.closing q2).trace }
  have hw₁ : w₁.core = w.core.log (.closed (w.servers q2).socket) :=
    congrArg (fun t ↦ { w.core with trace := t }) htrace
  obtain ⟨w', h, hcore⟩ := core_removeServerSocket (w.closing q2)
  refine ⟨w', (closeConnection_run q2 w).trans h, ?_⟩
  have hclosing : (w.closing q2).core =
      w₁.core.updateRecord q2 fun r ↦ { r with connected := false, index := 0 } :=
    core_updateServer w₁ q2 (f := Q2Server.disconnect) rfl
  rw [hcore, hclosing, hw₁]
  rfl

/-- A server whose connection has been closed is not connected. -/
theorem closeConnection_disconnects {q2 : Fin N} {w w' : World N}
    (h : (closeConnection q2).run w = .ok () w') : (w'.servers q2).connected = false := by
  rw [closeConnection_run] at h
  rw [(removeServerSocket_frame h).2.2.2 q2, World.closing_self]
  rfl

/-- A verified AUTH grants trust. -/
theorem core_granted (w : World N) (q2 : Fin N) : (w.granted q2).core = w.core.grant q2 := by
  have hrecords : (w.updateServer q2 (Q2Server.grant w.nextHandle)).core.records =
      (w.core.updateRecord q2 fun r ↦ { r with trusted := true }).records :=
    congrArg Core.records (core_updateServer w q2 rfl)
  exact congrArg (fun r ↦ { w.core.grant q2 with records := r }) hrecords

/-- The answer that is checked is the one the record accepts, and only that shows. -/
theorem core_checkAnswer {c : Crypto} {q2 : Fin N} {cipher : List UInt8} {w w' : World N}
    {b : Bool} (h : (checkAnswer c q2 cipher).run w = .ok b w') :
    b = (w.servers q2).accepts c cipher ∧
      w'.core = if b then w.core.grant q2 else w.core := by
  obtain ⟨hb, k, _, hw⟩ := checkAnswer_ok h
  have hused : (w.deciphered q2 k).core = w.core := core_unlogged w rfl
  refine ⟨hb, ?_⟩
  rw [hw]
  cases b with
  | true => exact (core_granted _ q2).trans (congrArg (fun k : Core N ↦ k.grant q2) hused)
  | false => exact hused

private theorem core_concludeAuth {c : Crypto} {q2 : Fin N} {verified : Bool} {w w' : World N}
    (h : (concludeAuth c q2 verified).run w = .ok () w') :
    w'.core = if verified then w.core else w.core.close q2 := by
  unfold concludeAuth at h
  cases verified with
  | true => exact (talks_acceptAuth c q2).keeps_core.ok h
  | false =>
    obtain ⟨_, w₁, h₁, h⟩ := run_bind_ok h
    obtain ⟨_, w₂, h₂, h₁⟩ := run_bind_ok h₁
    obtain ⟨_, w₃, h₃, h₁⟩ := run_bind_ok h₁
    obtain ⟨w₄, h₄, hc₄⟩ := core_closeConnection q2 w₃
    rw [h₄] at h₁
    cases h₁
    rw [(talks_acceptAuth c q2).keeps_core.ok h, hc₄,
      (talks_sendBuffer c q2).keeps_core.ok h₃, (talks_onOut q2 _).keeps_core.ok h₂]
    rfl

/-- What a command does to the session of the server with this record. -/
def Command.sessionOp (c : Crypto) (s : Q2Server) : Command → Option SessionOp
  | .auth cipher => some (if s.accepts c cipher then .grant else .close)
  | .quit => some .close
  | _ => none

private theorem core_enterPlayer (q2 : Fin N) (clientId : UInt8) (userinfo : List UInt8) :
    Keeps World.core (enterPlayer q2 clientId userinfo) :=
  keeps_bind (talks_liftFault _).keeps_core fun _ ↦ keeps_core_modifyServer q2 fun _ ↦ rfl

private theorem core_listPlayer (q2 : Fin N) (slot clientId : UInt8) (userinfo : List UInt8) :
    Keeps World.core (listPlayer q2 slot clientId userinfo) :=
  keeps_bind (keeps_core_modifyServer q2 (fun _ ↦ rfl)) fun _ ↦
    keeps_bind (talks_liftFault _).keeps_core fun _ ↦ keeps_core_modifyServer q2 fun _ ↦ rfl

private theorem core_execEntries (q2 : Fin N) (i : UInt8) (entries : List (UInt8 × List UInt8)) :
    Keeps World.core (execEntries q2 i entries) := by
  induction entries generalizing i with
  | nil => exact keeps_pure _
  | cons e entries ih => exact keeps_bind (core_listPlayer q2 i e.1 e.2) fun _ ↦ ih (e.1 + 1)

/-- Commands other than AUTH and QUIT do not show in the sessions. -/
theorem keeps_core_exec (c : Crypto) (q2 : Fin N) {cmd : Command} {s : Q2Server}
    (h : cmd.sessionOp c s = none) : Keeps World.core (exec c q2 cmd) := by
  cases cmd with
  | auth cipher => cases h
  | quit => cases h
  | ping => exact (talks_pong c q2).keeps_core
  | print level text => exact keeps_pure _
  | teleport clientId location => exact (talks_teleport c q2 clientId location).keeps_core
  | invite clientId text => exact (talks_invite c q2 clientId text).keeps_core
  | command kind => exact keeps_pure _
  | connect clientId userinfo =>
    exact keeps_bind (core_enterPlayer q2 clientId userinfo) fun _ ↦
      keeps_core_modifyServer q2 fun _ ↦ rfl
  | playerUpdate clientId userinfo => exact core_enterPlayer q2 clientId userinfo
  | disconnect clientId => exact keeps_core_modifyServer q2 fun _ ↦ rfl
  | playerList count entries =>
    exact keeps_bind (keeps_core_modifyServer q2 (fun _ ↦ rfl)) fun _ ↦
      core_execEntries q2 0 entries
  | map name => exact keeps_core_modifyServer q2 fun _ ↦ rfl
  | other cmd => exact keeps_pure _

/-- A command acts on the sessions as its operation. -/
theorem core_exec {c : Crypto} {q2 : Fin N} {cmd : Command} {w w' : World N}
    (h : (exec c q2 cmd).run w = .ok () w') :
    w'.core = (cmd.sessionOp c (w.servers q2)).elim w.core (w.core.apply q2) := by
  cases hop : cmd.sessionOp c (w.servers q2) with
  | none => exact (keeps_core_exec c q2 hop).ok h
  | some op =>
    cases cmd with
    | auth cipher =>
      obtain ⟨b, w₁, h₁, h₂⟩ := run_bind_ok h
      obtain ⟨hb, hc₁⟩ := core_checkAnswer h₁
      rw [core_concludeAuth h₂, hc₁]
      change some (if (w.servers q2).accepts c cipher then _ else _) = some op at hop
      rw [← hb] at hop
      cases b with
      | true => cases hop; rfl
      | false => cases hop; rfl
    | quit =>
      cases hop
      obtain ⟨w₁, h₁, hc₁⟩ := core_closeConnection q2 w
      have he : (closeConnection q2).run w = .ok () w' := h
      rw [h₁] at he
      cases he
      exact hc₁
    | _ => cases hop

/-- What a list of commands does to the session of the server with this record. -/
def sessionOps (c : Crypto) (s : Q2Server) (cmds : List Command) : List SessionOp :=
  cmds.filterMap (Command.sessionOp c s)

/-- What a command does to its session depends on the credentials only. -/
theorem sessionOp_congr (c : Crypto) {s s' : Q2Server} (h : s.credentials = s'.credentials)
    (cmd : Command) : cmd.sessionOp c s = cmd.sessionOp c s' := by
  cases cmd with
  | auth cipher =>
    exact congrArg (fun b : Bool ↦ some (if b then SessionOp.grant else .close))
      (accepts_congr c h cipher)
  | _ => rfl

/-- The commands of a message act on the sessions as their operations. -/
theorem core_execAll {c : Crypto} {q2 : Fin N} {cmds : List Command} {w w' : World N}
    (h : (forM cmds (exec c q2)).run w = .ok () w') :
    w'.core = w.core.applyAll q2 (sessionOps c (w.servers q2) cmds) := by
  induction cmds generalizing w with
  | nil =>
    cases h
    rfl
  | cons cmd cmds ih =>
    rw [List.forM_cons] at h
    obtain ⟨_, w₁, h₁, h₂⟩ := run_bind_ok h
    have hcred : (w₁.servers q2).credentials = (w.servers q2).credentials :=
      (keeps_credentials_exec c q2 q2 cmd).ok h₁
    have hops : sessionOps c (w₁.servers q2) cmds = sessionOps c (w.servers q2) cmds :=
      congrArg (fun f ↦ cmds.filterMap f) (funext (sessionOp_congr c hcred))
    rw [ih h₂, hops, core_exec h₁]
    unfold sessionOps
    rw [List.filterMap_cons]
    cases cmd.sessionOp c (w.servers q2) with
    | none => rfl
    | some op => rfl

end Q2Admin
