import Q2Admin.Session.Sends
import Q2Admin.Session.Invariants
import Q2Admin.Command.Message
import Q2Admin.Command.Table

/-!
# The footprint of a message

Library `Q2Admin.Session`. What the commands of a server do to the state is a chain of
elementary changes: text for an output buffer, a call of `SendBuffer`, a call of `va`, what
the server tells about its game, the check of an AUTH, and `CloseConnection`. Frames are read
off the changes; `parseMessage_spares` says what a message may do to the records of the
servers that it does not come from.
-/

namespace Q2Admin

open Exec

variable {N : Nat} {α : Type}

/-- The elementary changes that the commands of a server are made of, when they talk to the
servers with `P`, and check answers and close connections only under `S`. -/
inductive Change (c : Crypto) (q2 : Fin N) (P : Fin N → Prop) (S : Prop) :
    World N → World N → Prop
  | write (w : World N) {s : Fin N} (hs : P s) (m : MsgBuffer)
      (hm : (w.servers s).msg.length ≤ m.length) :
      Change c q2 P S w (w.updateServer s fun r ↦ { r with msg := m })
  | send (w : World N) {s : Fin N} (hs : P s) : Change c q2 P S w (final (sendBuffer c s) w)
  | format (w : World N) (strings : Fin 8 → List UInt8) (index : UInt16) :
      Change c q2 P S w { w with vaStrings := strings, vaIndex := index }
  | ping (w : World N) (count : UInt32) :
      Change c q2 P S w (w.updateServer q2 fun r ↦
        { r with connection := { r.connection with pingCount := count } })
  | tell (w : World N) (t : Table) :
      Change c q2 P S w (w.updateServer q2 fun r ↦
        { r with players := t.players, playercount := t.playercount, map := t.map })
  | check (w : World N) (hs : S) (cipher : List UInt8) :
      Change c q2 P S w (final (checkAnswer c q2 cipher) w)
  | close (w : World N) (hs : S) : Change c q2 P S w (final (closeConnection q2) w)

/-- The command is an invitation. -/
def Command.isInvite : Command → Bool
  | .invite _ _ => true
  | _ => false

/-- The command is one of those that a session begins or ends with. -/
def Command.isSession : Command → Bool
  | .auth _ | .quit => true
  | _ => false

section Moves

variable (c : Crypto) (q2 : Fin N) {P : Fin N → Prop} {S : Prop}

/-- Looking at the state changes nothing. -/
theorem moves_look (v : World N → α) : Moves (Change c q2 P S) (look v) := fun _ ↦ .refl

/-- A writer changes the output buffer of its server. -/
theorem moves_onOut {s : Fin N} (hs : P s) {x : BufM α} (hx : Lengthens x) :
    Moves (Change c q2 P S) (onOut s x) := by
  intro w
  change Relation.ReflTransGen (Change c q2 P S) w
    (final (zoom (outMsg s) x) w)
  rw [final_zoom]
  exact .single (.write w hs _ (hx _ _ (Nat.le_refl _)))

/-- `SendBuffer` changes the output buffer of its server. -/
theorem moves_sendBuffer {s : Fin N} (hs : P s) : Moves (Change c q2 P S) (sendBuffer c s) :=
  fun w ↦ .single (.send w hs)

private theorem moves_liftFault (x : Except Fault α) :
    Moves (Change c q2 P S) (liftFault x : M N α) := by
  cases x with
  | ok a => exact moves_pure a
  | error e => exact moves_throw e

/-- `va` changes its own buffers. -/
theorem moves_va (format : List Piece) : Moves (Change c q2 P S) (va format : M N CharPtr) := by
  apply moves_bind (moves_look c q2 _)
  intro slot
  apply moves_bind (moves_modify fun w ↦ .format w w.vaStrings (w.vaIndex + 1))
  intro _
  apply moves_ite (moves_throw _)
  apply moves_bind (moves_modify fun w ↦ .format w _ w.vaIndex)
  intro _
  exact moves_pure _

private theorem moves_clientText {s : Fin N} (hs : P s) (cl type : UInt8) (text : CharPtr) :
    Moves (Change c q2 P S) (clientText s cl type text) :=
  moves_bind (moves_look c q2 _) fun text ↦ moves_onOut c q2 hs
    (lengthens_bind (lengthens_byte _) fun _ ↦ lengthens_bind (lengthens_byte cl) fun _ ↦
      lengthens_byte_string type text)

/-- Listing the servers changes the buffers of `va` only. -/
theorem moves_buildTeleportServers :
    Moves (Change c q2 P S) (buildTeleportServers : M N CharPtr) := by
  apply moves_foldlM
  intro str s _
  apply moves_bind (moves_look c q2 _)
  intro r
  apply moves_ite (moves_pure _)
  apply moves_bind
  · apply moves_foldlM
    intro players i _
    apply moves_bind (moves_look c q2 _)
    intro _
    apply moves_bind (moves_va c q2 _)
    intro _
    apply moves_bind (moves_look c q2 _)
    intro _
    exact moves_ite (moves_throw _) (moves_pure _)
  · intro players
    exact moves_ite (moves_throw _) (moves_va c q2 _)

private theorem moves_pong (hq : P q2) : Moves (Change c q2 P S) (pong c q2) := by
  apply moves_bind (moves_onOut c q2 hq (lengthens_byte _))
  intro _
  apply moves_bind (moves_modify fun w ↦ ?_) fun _ ↦ moves_sendBuffer c q2 hq
  exact .ping w ((w.servers q2).connection.pingCount + 1)

private theorem moves_teleport (hq : P q2) (clientId : UInt8) (location : List UInt8) :
    Moves (Change c q2 P S) (teleport c q2 clientId location) := by
  apply moves_ite
  · apply moves_bind (moves_buildTeleportServers c q2)
    intro _
    exact moves_bind (moves_clientText c q2 hq _ _ _) fun _ ↦ moves_sendBuffer c q2 hq
  · apply moves_bind (moves_look c q2 _)
    intro found
    cases found with
    | some f =>
      apply moves_bind (moves_look c q2 _)
      intro _
      apply moves_bind (moves_va c q2 _)
      intro _
      apply moves_bind (moves_va c q2 _)
      intro _
      apply moves_bind (moves_clientText c q2 hq _ _ _)
      intro _
      apply moves_bind (moves_look c q2 _)
      intro _
      exact moves_bind (moves_onOut c q2 hq (lengthens_byte_string _ _)) fun _ ↦
        moves_sendBuffer c q2 hq
    | none =>
      apply moves_bind (moves_va c q2 _)
      intro _
      exact moves_bind (moves_clientText c q2 hq _ _ _) fun _ ↦ moves_sendBuffer c q2 hq

private theorem moves_sayAll (message : List UInt8) {s : Fin N} (hs : P s) :
    Moves (Change c q2 P S) (sayAll c message s) := by
  apply moves_bind (moves_look c q2 _)
  intro _
  apply moves_ite (moves_pure _)
  exact moves_bind (moves_onOut c q2 hs (lengthens_byte_string _ _)) fun _ ↦
    moves_sendBuffer c q2 hs

private theorem moves_invite (hall : ∀ s, P s) (clientId : UInt8) (text : List UInt8) :
    Moves (Change c q2 P S) (invite c q2 clientId text) := by
  apply moves_bind (moves_look c q2 _)
  intro _
  apply moves_bind (moves_va c q2 _)
  intro _
  apply moves_bind (moves_look c q2 _)
  intro _
  exact moves_forM fun s _ ↦ moves_sayAll c q2 _ (hall s)

private theorem moves_enterPlayer (clientId : UInt8) (userinfo : List UInt8) :
    Moves (Change c q2 P S) (enterPlayer q2 clientId userinfo) := by
  apply moves_bind (moves_liftFault c q2 _)
  intro name
  exact moves_modify fun w ↦ .tell w { (w.servers q2).table with
    players := Function.update (w.servers q2).players clientId
      (Player.make clientId name userinfo) }

private theorem moves_execEntries (i : UInt8) (entries : List (UInt8 × List UInt8)) :
    Moves (Change c q2 P S) (execEntries q2 i entries) := by
  induction entries generalizing i with
  | nil => exact moves_pure _
  | cons e entries ih =>
    apply moves_bind _ fun _ ↦ ih (e.1 + 1)
    apply moves_bind (moves_modify fun w ↦ .tell w { (w.servers q2).table with
      players := Function.update (w.servers q2).players i (Player.make e.1 [] e.2) })
    intro _
    apply moves_bind (moves_liftFault c q2 _)
    intro name
    exact moves_modify fun w ↦ .tell w { (w.servers q2).table with
      players := Function.update (w.servers q2).players i (Player.make e.1 name e.2) }

/-- Answering an accepted AUTH changes the output buffer of the server. -/
theorem moves_acceptAuth (hq : P q2) : Moves (Change c q2 P S) (acceptAuth c q2) :=
  moves_bind (moves_onOut c q2 hq (lengthens_byte _)) fun _ ↦ moves_sendBuffer c q2 hq

/-- Concluding an AUTH may end the session of the server. -/
theorem moves_concludeAuth (hq : P q2) (hs : S) (verified : Bool) :
    Moves (Change c q2 P S) (concludeAuth c q2 verified) := by
  apply moves_ite (moves_acceptAuth c q2 hq)
  apply moves_bind _ fun _ ↦ moves_acceptAuth c q2 hq
  apply moves_bind (moves_onOut c q2 hq (lengthens_bind (lengthens_byte _) fun _ ↦
    lengthens_bind (lengthens_byte _) fun _ ↦ lengthens_byte_string _ _))
  intro _
  exact moves_bind (moves_sendBuffer c q2 hq) fun _ ↦ fun w ↦ .single (.close w hs)

/-- The handlers are made of the elementary changes; only an invitation is for everyone. -/
theorem moves_exec (hq : P q2) {cmd : Command} (hall : cmd.isInvite = true → ∀ s, P s)
    (hs : cmd.isSession = true → S) :
    Moves (Change c q2 P S) (exec c q2 cmd) := by
  cases cmd with
  | auth cipher =>
    exact moves_bind (fun w ↦ .single (.check w (hs rfl) cipher)) fun b ↦
      moves_concludeAuth c q2 hq (hs rfl) b
  | quit => exact fun w ↦ .single (.close w (hs rfl))
  | ping => exact moves_pong c q2 hq
  | print level text => exact moves_pure _
  | teleport clientId location => exact moves_teleport c q2 hq clientId location
  | invite clientId text => exact moves_invite c q2 (hall rfl) clientId text
  | command kind => exact moves_pure _
  | connect clientId userinfo =>
    apply moves_bind (moves_enterPlayer c q2 clientId userinfo)
    intro _
    exact moves_modify fun w ↦ .tell w { (w.servers q2).table with
      playercount := (w.servers q2).playercount + 1 }
  | playerUpdate clientId userinfo => exact moves_enterPlayer c q2 clientId userinfo
  | disconnect clientId =>
    exact moves_modify fun w ↦ .tell w { (w.servers q2).table with
      players := Function.update (w.servers q2).players clientId Player.zero
      playercount := (w.servers q2).playercount - 1 }
  | playerList count entries =>
    apply moves_bind (moves_modify fun w ↦ .tell w { (w.servers q2).table with
      playercount := count })
    intro _
    exact moves_execEntries c q2 0 entries
  | map name =>
    exact moves_modify fun w ↦ .tell w { (w.servers q2).table with map := strncpy 20 name }
  | other cmd => exact moves_pure _

/-- Commands may change what each of them may change. -/
theorem moves_execAll (hall : ∀ s, P s) (hs : S) (cmds : List Command) :
    Moves (Change c q2 P S) (forM cmds (exec c q2)) :=
  moves_forM fun _ _ ↦ moves_exec c q2 (hall q2) (fun _ ↦ hall) fun _ ↦ hs

end Moves

section Other

variable {ν : Type} {v : Q2Server → ν} {q2 s : Fin N}

/-- Assignments to another record. -/
theorem keeps_modifyServer_of_ne (hs : s ≠ q2) (f : Q2Server → Q2Server) :
    Keeps (fun w ↦ v (w.servers s)) (modifyServer q2 f) := by
  apply keeps_modify
  intro w
  rw [World.updateServer_of_ne _ _ hs]

/-- A change made for one server shows in the record of another one at most in its index and
its output buffer. -/
theorem Change.other {c : Crypto} {P : Fin N → Prop} {S : Prop} {w w' : World N}
    (h : Change c q2 P S w w')
    (hs : s ≠ q2) (hindex : ∀ r i, v { r with index := i } = v r)
    (hmsg : P s → ∀ r m, v { r with msg := m } = v r) :
    v (w'.servers s) = v (w.servers s) := by
  -- Text for another server touches that server only.
  have hwrite {t : Fin N} (ht : P t) (m : MsgBuffer) :
      Keeps (fun w ↦ v (w.servers s)) (modifyServer t fun r ↦ { r with msg := m }) := by
    by_cases hst : s = t
    · subst hst
      exact keeps_modifyServer s s fun r ↦ hmsg ht r m
    · exact keeps_modifyServer_of_ne hst _
  cases h with
  | write ht m _ => exact hwrite ht m w
  | send ht =>
    exact keeps_send c (fun _ _ ↦ keeps_server_logEvent _ s)
      (fun _ _ _ ↦ keeps_server_logEvent _ s) (hwrite ht .zero) w
  | format => rfl
  | ping => rw [World.updateServer_of_ne _ _ hs]
  | tell => rw [World.updateServer_of_ne _ _ hs]
  | check _ cipher =>
    exact keeps_check c cipher (fun _ _ ↦ keeps_server_logEvent _ s)
      (fun _ ↦ keeps_server_logEvent _ s) (fun _ ↦ keeps_server_createHandle q2 _ s)
      (fun f _ ↦ keeps_modifyServer_of_ne hs f) w
  | close =>
    exact keeps_close (fun _ _ ↦ keeps_server_logEvent _ s) (fun _ ↦ keeps_server_logEvent _ s)
      (keeps_modifyServer_of_ne hs _) (keeps_removeServerSocket hindex s) w

end Other

section Message

variable {c : Crypto} {q2 s : Fin N} {w w' : World N}

/-- A record apart from its place in the poll table and its output buffer. -/
def Q2Server.settled (s : Q2Server) : Q2Server := { s with index := 0, msg := .zero }

/-- The commands of another server leave a record as it was apart from its place and buffer. -/
theorem settled_execAll (hs : s ≠ q2) {cmds : List Command}
    (h : (forM cmds (exec c q2)).run w = .ok () w') :
    (w'.servers s).settled = (w.servers s).settled :=
  ((moves_execAll c q2 (fun _ ↦ trivial) trivial cmds).keeps
    (v := fun w ↦ (w.servers s).settled) fun _ _ hc ↦
      hc.other (v := Q2Server.settled) hs (fun _ _ ↦ rfl) fun _ _ _ ↦ rfl).ok h

private theorem connected_of_settled (h : (w'.servers s).settled = (w.servers s).settled) :
    (w'.servers s).connected = (w.servers s).connected :=
    (congrArg Q2Server.connected h :)

private theorem msg_of_moves {P : Fin N → Prop} {S : Prop} {x : M N α} {a : α} {q : Fin N}
    (hx : Moves (Change c q P S) x) (hs : s ≠ q) (hP : ¬ P s) (h : x.run w = .ok a w') :
    (w'.servers s).msg = (w.servers s).msg :=
  (hx.keeps (v := fun w ↦ (w.servers s).msg) fun _ _ hc ↦
    hc.other (v := Q2Server.msg) hs (fun _ _ ↦ rfl) fun hp ↦ absurd hp hP).ok h

-- An invitation leaves the buffer of a connected server empty.
private theorem msg_sayAll {t : Fin N} {message : List UInt8}
    (h : (sayAll c message t).run w = .ok () w') :
    (w'.servers s).msg =
      if (w.servers s).connected = true ∧ s = t then .zero else (w.servers s).msg := by
  have hsay := sayAll_ok h
  by_cases hc : (w.servers t).connected = true
  · rw [if_pos hc] at hsay
    obtain ⟨plain, rfl, _⟩ := hsay
    by_cases hst : s = t
    · subst hst
      rw [World.posted_self, if_pos ⟨hc, rfl⟩]
      rfl
    · rw [World.posted_of_ne _ _ _ hst, if_neg fun h ↦ hst h.2]
  · rw [if_neg hc] at hsay
    rw [hsay, if_neg]
    rintro ⟨hcs, rfl⟩
    exact hc hcs

private theorem msg_sayAll_forM {message : List UInt8} {l : List (Fin N)}
    (h : (forM l (sayAll c message)).run w = .ok () w') :
    ((w.servers s).connected = false → (w'.servers s).msg = (w.servers s).msg) ∧
      ((w.servers s).connected = true → s ∈ l ∨ (w.servers s).msg = .zero →
        (w'.servers s).msg = .zero) := by
  induction l generalizing w with
  | nil =>
    cases h
    exact ⟨fun _ ↦ rfl, fun _ hor ↦ hor.resolve_left List.not_mem_nil⟩
  | cons t l ih =>
    rw [List.forM_cons] at h
    obtain ⟨_, w₁, h₁, h⟩ := run_bind_ok h
    have hc : (w₁.servers s).connected = (w.servers s).connected :=
      connected_of_core ((talks_sayAll c message t).keeps_core.ok h₁) s
    obtain ⟨hidle, hsent⟩ := ih h
    rw [hc] at hidle hsent
    rw [msg_sayAll h₁] at hidle hsent
    refine ⟨fun hno ↦ ?_, fun hyes hor ↦ hsent hyes ?_⟩
    · rw [hidle hno, if_neg (by simp [hno])]
    · rcases hor with hmem | hzero
      · rcases List.mem_cons.mp hmem with rfl | hmem
        · exact .inr (if_pos ⟨hyes, rfl⟩)
        · exact .inl hmem
      · right
        rw [hzero]
        exact ite_self _

private theorem msg_exec (hs : s ≠ q2) {cmd : Command}
    (h : (exec c q2 cmd).run w = .ok () w') :
    (w'.servers s).msg =
      if (w.servers s).connected = true ∧ cmd.isInvite = true then .zero
      else (w.servers s).msg := by
  cases hi : cmd.isInvite with
  | false =>
    have hmoves : Moves (Change c q2 (fun q ↦ q = q2) True) (exec c q2 cmd) :=
      moves_exec c q2 (P := fun q ↦ q = q2) rfl (fun hinv ↦ absurd hinv (by simp [hi]))
        fun _ ↦ trivial
    rw [msg_of_moves hmoves hs hs h]
    simp
  | true =>
    cases cmd with
    | invite clientId text =>
      have hinv : (invite c q2 clientId text).run w = .ok () w' := h
      obtain ⟨r, w₁, h₁, hinv⟩ := run_bind_ok hinv
      obtain ⟨p, w₂, h₂, hinv⟩ := run_bind_ok hinv
      obtain ⟨t, w₃, h₃, hinv⟩ := run_bind_ok hinv
      obtain ⟨rfl, rfl⟩ := look_ok h₁
      obtain ⟨rfl, rfl⟩ := look_ok h₃
      have hmsg : (w₂.servers s).msg = (w.servers s).msg :=
        msg_of_moves (moves_va c q2 (P := fun _ ↦ False) (S := False) _) hs id h₂
      have hc : (w₂.servers s).connected = (w.servers s).connected :=
        connected_of_core ((talks_va _).keeps_core.ok h₂) s
      obtain ⟨hidle, hsent⟩ := msg_sayAll_forM (s := s) hinv
      rw [hc, hmsg] at hidle
      rw [hc] at hsent
      cases hcs : (w.servers s).connected with
      | false => simpa using hidle hcs
      | true => simpa [Command.isInvite] using hsent hcs (.inl (List.mem_finRange s))
    | _ => cases hi

private theorem msg_execAll (hs : s ≠ q2) {cmds : List Command}
    (h : (forM cmds (exec c q2)).run w = .ok () w') :
    (w'.servers s).msg =
      if (w.servers s).connected = true ∧ ∃ cmd ∈ cmds, cmd.isInvite = true then .zero
      else (w.servers s).msg := by
  induction cmds generalizing w with
  | nil =>
    cases h
    simp
  | cons cmd cmds ih =>
    rw [List.forM_cons] at h
    obtain ⟨_, w₁, h₁, h⟩ := run_bind_ok h
    have hone : (forM [cmd] (exec c q2)).run w = .ok () w₁ := by
      rw [List.forM_cons, run_bind_of_ok h₁]
      rfl
    rw [ih h, connected_of_settled (settled_execAll hs hone), msg_exec hs h₁]
    by_cases hc : (w.servers s).connected = true
    · by_cases hi : cmd.isInvite = true
      · simp [hc, hi]
      · simp [hc, hi]
    · simp [hc]

/-- What the commands of a message of `q2` do to the record of `s`: it changes at most in its
index, if the message closes the connection of `q2`, and in its output buffer, which an
invitation leaves empty when `s` is connected. -/
structure Spared (c : Crypto) (q2 s : Fin N) (cmds : List Command) (w w' : World N) : Prop where
  record : w'.servers s =
    { w.servers s with index := (w'.servers s).index, msg := (w'.servers s).msg }
  index : (w'.servers s).index ≠ (w.servers s).index →
    ∃ cmd ∈ cmds, cmd.sessionOp c (w.servers q2) = some .close
  msg : (w'.servers s).msg =
    if (w.servers s).connected = true ∧ ∃ cmd ∈ cmds, cmd.isInvite = true then .zero
    else (w.servers s).msg

private theorem spared_execAll (hs : s ≠ q2) {cmds : List Command}
    (h : (forM cmds (exec c q2)).run w = .ok () w') : Spared c q2 s cmds w w' := by
  refine ⟨?_, fun hne ↦ ?_, msg_execAll hs h⟩
  · have hsettled := settled_execAll hs h
    calc w'.servers s
        = { (w'.servers s).settled with
            index := (w'.servers s).index, msg := (w'.servers s).msg } := rfl
      _ = { (w.servers s).settled with
            index := (w'.servers s).index, msg := (w'.servers s).msg } := by rw [hsettled]
      _ = _ := rfl
  · by_contra hno
    have hclose : SessionOp.close ∉ sessionOps c (w.servers q2) cmds := by
      intro hmem
      obtain ⟨cmd, hcmd, hop⟩ := List.mem_filterMap.mp hmem
      exact hno ⟨cmd, hcmd, hop⟩
    apply hne
    have hindex := Core.applyAll_index w.core q2 hclose s
    rwa [← core_execAll h] at hindex

end Message

private def sampleRow (q2 : Fin 2) : Row :=
  ⟨1, q2.val.toUInt32, 0, ascii "s", ascii "h", 27910, true⟩

-- Both are connected, and the first one has sent an invitation.
private def samplePair : World 2 :=
  { initial sampleRow 3 fun _ ↦ ⟨0, false, false⟩ with
    servers := fun q2 ↦
      { (sampleRow q2).load with index := q2.val + 1, connected := true, socket := q2.val + 4 }
    sockets := fun i ↦ ⟨i + 3, true, false⟩
    socketCount := 3
    msg := .received [8, 1, 0, 120, 0] }

end Q2Admin
