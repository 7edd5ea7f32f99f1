import Q2Admin.Command.Frame
import Q2Admin.Session.Frames
import Q2Admin.Loop.PollTable

/-!
# Behind a closed connection

Library `Q2Admin.Loop`. `CloseConnection` returns into the loop of `ParseMessage`, which goes on
with the next command, and a refused AUTH goes on to its own acknowledgement. So what is behind
a closing command still runs, for a server that can no longer be written to:
`nothing_behind_close_iff` says when it has no effect.
-/

namespace Q2Admin

open Exec

variable {N : Nat} {α β : Type}

/-- What the handler of a closing command does up to its call of `CloseConnection`, the call
included. -/
def closing (c : Crypto) (q2 : Fin N) : Command → M N Unit
  | .auth cipher => do
    let _ ← checkAnswer c q2 cipher
    refuseAuth c q2
  | _ => closeConnection q2

/-- `ParseMessage` up to the call of `CloseConnection` for the command `cmd` behind the commands
`pre`, the call included. -/
def parseUntilClose (c : Crypto) (q2 : Fin N) (pre : List Command) (cmd : Command) : M N Unit := do
  decryptMessage c q2
  forM pre (exec c q2)
  closing c q2 cmd

/-- The state apart from the message that is being parsed. -/
def World.unparsed (w : World N) : World N := { w with msg := .zero }

/-- When `ParseMessage` returns the state is as it was right after that call, apart from the
message itself. -/
def NothingBehind (c : Crypto) (q2 : Fin N) (pre : List Command) (cmd : Command) (w w' : World N) :
    Prop :=
  ∃ w₁, (parseUntilClose c q2 pre cmd).run w = .ok () w₁ ∧ w'.unparsed = w₁.unparsed

/-- The events so far and the bytes in the output buffer of a server, in number. -/
def World.mass (w : World N) (q2 : Fin N) : Nat := w.trace.length + (w.servers q2).msg.length

/-- On a server that is not connected the program leaves it so when it returns, and takes back
nothing of what has been noted or written for it. -/
def Hoards (q2 : Fin N) (x : M N α) : Prop :=
  ∀ w a w', (w.servers q2).connected = false → x.run w = .ok a w' →
    (w'.servers q2).connected = false ∧ w.mass q2 ≤ w'.mass q2

/-- And there is more of it than before. -/
def Gathers (q2 : Fin N) (x : M N α) : Prop :=
  ∀ w a w', (w.servers q2).connected = false → x.run w = .ok a w' →
    (w'.servers q2).connected = false ∧ w.mass q2 < w'.mass q2

section Rules

variable {q2 : Fin N} {x : M N α} {f : α → M N β}

private theorem hoards_bind (hx : Hoards q2 x) (hf : ∀ a, Hoards q2 (f a)) :
    Hoards q2 (x >>= f) := by
  intro w b w' hc h
  obtain ⟨a, w₁, h₁, h⟩ := run_bind_ok h
  obtain ⟨hc₁, hle₁⟩ := hx w a w₁ hc h₁
  obtain ⟨hc', hle⟩ := hf a w₁ b w' hc₁ h
  exact ⟨hc', Nat.le_trans hle₁ hle⟩

private theorem gathers_bind_left (hx : Gathers q2 x) (hf : ∀ a, Hoards q2 (f a)) :
    Gathers q2 (x >>= f) := by
  intro w b w' hc h
  obtain ⟨a, w₁, h₁, h⟩ := run_bind_ok h
  obtain ⟨hc₁, hlt⟩ := hx w a w₁ hc h₁
  obtain ⟨hc', hle⟩ := hf a w₁ b w' hc₁ h
  exact ⟨hc', Nat.lt_of_lt_of_le hlt hle⟩

private theorem gathers_bind_right (hx : Hoards q2 x) (hf : ∀ a, Gathers q2 (f a)) :
    Gathers q2 (x >>= f) := by
  intro w b w' hc h
  obtain ⟨a, w₁, h₁, h⟩ := run_bind_ok h
  obtain ⟨hc₁, hle⟩ := hx w a w₁ hc h₁
  obtain ⟨hc', hlt⟩ := hf a w₁ b w' hc₁ h
  exact ⟨hc', Nat.lt_of_le_of_lt hle hlt⟩

end Rules

private theorem hoards_change {c : Crypto} {q2 : Fin N} {n : Nat} {w w' : World N}
    (h : Change c q2 (fun _ ↦ True) True w w')
    (hw : (w.servers q2).connected = false ∧ n ≤ (w.servers q2).msg.length) :
    (w'.servers q2).connected = false ∧ n ≤ (w'.servers q2).msg.length := by
  let v (r : Q2Server) : Bool × MsgBuffer := (r.connected, r.msg)
  have hsame {w₁ : World N} (hv : v (w₁.servers q2) = v (w.servers q2)) :
      (w₁.servers q2).connected = false ∧ n ≤ (w₁.servers q2).msg.length := by
    have hconnected : (w₁.servers q2).connected = (w.servers q2).connected := congrArg Prod.fst hv
    have hmsg : (w₁.servers q2).msg = (w.servers q2).msg := congrArg Prod.snd hv
    rwa [hconnected, hmsg]
  cases h with
  | @write s _ m hm =>
    by_cases hs : q2 = s
    · subst hs
      rw [World.updateServer_self]
      exact ⟨hw.1, Nat.le_trans hw.2 hm⟩
    · rwa [World.updateServer_of_ne _ _ hs]
  | @send s =>
    by_cases hs : q2 = s
    · subst hs
      rwa [final_of_ok (sendBuffer_idle c hw.1)]
    · apply hsame
      exact keeps_send c (fun _ _ ↦ keeps_server_logEvent (v := v) _ q2)
        (fun _ _ _ ↦ keeps_server_logEvent _ q2) (keeps_modifyServer_of_ne hs _) w
  | format => exact hw
  | ping =>
    rw [World.updateServer_self]
    exact hw
  | tell =>
    rw [World.updateServer_self]
    exact hw
  | check _ cipher =>
    apply hsame
    refine keeps_check c cipher (fun _ _ ↦ keeps_server_logEvent (v := v) _ q2)
      (fun _ ↦ keeps_server_logEvent _ q2) (fun _ ↦ keeps_server_createHandle q2 _ q2)
      (fun f hf ↦ keeps_modifyServer q2 q2 fun r ↦ ?_) w
    exact (congrArg v (hf r) :)
  | close =>
    obtain ⟨w₁, h₁, _⟩ := core_closeConnection q2 w
    have hmsg : (w₁.servers q2).msg = (w.servers q2).msg := by
      have hrebuild := h₁
      rw [closeConnection_run] at hrebuild
      rw [(removeServerSocket_frame hrebuild).2.2.2 q2, World.closing_self]
      rfl
    rw [final_of_ok h₁, hmsg]
    exact ⟨closeConnection_disconnects h₁, hw.2⟩

private theorem hoards_of_moves {q2 : Fin N} {x : M N α} (c : Crypto) (hd : Detached x)
    (hm : Moves (Change c q2 (fun _ ↦ True) True) x) : Hoards q2 x := by
  intro w a w' hc h
  obtain ⟨e, he⟩ := hd.appends w
  have hkept := hm.preserves (I := fun w₁ ↦ (w₁.servers q2).connected = false ∧
    (w.servers q2).msg.length ≤ (w₁.servers q2).msg.length) (fun _ _ hc hw ↦ hoards_change hc hw) w
      ⟨hc, Nat.le_refl _⟩
  rw [final_of_ok h] at he hkept
  refine ⟨hkept.1, ?_⟩
  have hle := hkept.2
  unfold World.mass
  rw [he, List.length_append]
  omega

private theorem hoards_exec (c : Crypto) (q2 : Fin N) (cmd : Command) :
    Hoards q2 (exec c q2 cmd) :=
  hoards_of_moves c (detached_exec c q2 cmd)
    (moves_exec c q2 trivial (fun _ _ ↦ trivial) fun _ ↦ trivial)

private theorem hoards_sendBuffer (c : Crypto) (q2 : Fin N) : Hoards q2 (sendBuffer c q2) :=
  hoards_of_moves c (talks_sendBuffer c q2).detached (moves_sendBuffer c q2 trivial)

private theorem gathers_onOut {q2 : Fin N} {x : BufM Unit}
    (hx : ∀ m m', x.run m = .ok () m' → m.length < m'.length) : Gathers q2 (onOut q2 x) := by
  intro w _ w' hc h
  unfold onOut at h
  rw [run_zoom] at h
  split at h
  · next u m hw =>
    cases h
    have hlt : (w.servers q2).msg.length < m.length := hx _ _ hw
    have hself : ((outMsg q2).set m w).servers q2 = { w.servers q2 with msg := m } :=
      World.updateServer_self w q2 fun s ↦ { s with msg := m }
    unfold World.mass
    rw [hself]
    exact ⟨hc, Nat.add_lt_add_left hlt w.trace.length⟩
  · cases h

private theorem gathers_clientText (q2 : Fin N) (cl type : UInt8) (text : CharPtr) :
    Gathers q2 (clientText q2 cl type text) := by
  apply gathers_bind_right (hoards_of_moves .clear (talks_strAt text).detached (moves_look _ _ _))
  intro text
  apply gathers_onOut
  intro m m' h
  obtain ⟨_, m₁, h₁, h⟩ := run_bind_ok h
  have hfirst := msgWriteByte_length h₁
  have hrest := (lengthens_bind (lengthens_byte cl) fun _ ↦ lengthens_byte_string type text).ok h
  omega

private theorem gathers_teleport (c : Crypto) (q2 : Fin N) (clientId : UInt8)
    (location : List UInt8) : Gathers q2 (teleport c q2 clientId location) := by
  have hsend := hoards_sendBuffer c q2
  have hva (format : List Piece) : Hoards q2 (va format) :=
    hoards_of_moves c (talks_va format).detached (moves_va c q2 format)
  unfold teleport
  by_cases hl : location = []
  · rw [if_pos hl]
    apply gathers_bind_right
      (hoards_of_moves c talks_buildTeleportServers.detached (moves_buildTeleportServers c q2))
    intro srvstr
    exact gathers_bind_left (gathers_clientText q2 clientId printHigh srvstr) fun _ ↦ hsend
  · rw [if_neg hl]
    apply gathers_bind_right
      (hoards_of_moves c (talks_look fun _ _ _ ↦ rfl).detached (moves_look c q2 _))
    intro found
    cases found with
    | some f =>
      apply gathers_bind_right
        (hoards_of_moves c (talks_server f).detached (moves_look c q2 _))
      intro s
      refine gathers_bind_right (hva _) fun reply ↦ gathers_bind_right (hva _) fun stuff ↦ ?_
      apply gathers_bind_left (gathers_clientText q2 clientId printHigh reply)
      intro _
      apply hoards_bind (hoards_of_moves c (talks_strAt stuff).detached (moves_look c q2 _))
      intro stuff
      apply hoards_bind _ fun _ ↦ hsend
      exact hoards_of_moves c (talks_onOut q2 _).detached
        (moves_onOut c q2 trivial (lengthens_byte_string scmdCommand stuff))
    | none =>
      apply gathers_bind_right (hva _)
      intro reply
      exact gathers_bind_left (gathers_clientText q2 clientId printHigh reply) fun _ ↦ hsend

-- AUTH and QUIT note something even when the connection is closed, PING and TELEPORT write
-- something.
private theorem gathers_exec (c : Crypto) (q2 : Fin N) {cmd : Command} (ht : cmd.tells = false)
    (hi : cmd.isInvite = false) : Gathers q2 (exec c q2 cmd) := by
  cases cmd with
  | auth cipher =>
    have hconclude (b : Bool) : Hoards q2 (concludeAuth c q2 b) :=
      hoards_of_moves c (detached_concludeAuth c q2 b) (moves_concludeAuth c q2 trivial trivial b)
    apply gathers_bind_left _ hconclude
    intro w b w' hc h
    have hkept := hoards_of_moves c (detached_checkAnswer c q2 cipher)
      (fun w ↦ .single (.check w trivial cipher)) w b w' hc h
    refine ⟨hkept.1, ?_⟩
    obtain ⟨_, k, _, rfl⟩ := checkAnswer_ok h
    cases b with
    | true =>
      change w.trace.length + _ < (w.trace.length + 1 + 1 + 1 + 1) + _
      rw [if_pos rfl, World.granted_self]
      change _ + (w.servers q2).msg.length < _ + (w.servers q2).msg.length
      omega
    | false =>
      change w.trace.length + _ < (w.trace.length + 1) + (w.servers q2).msg.length
      omega
  | quit =>
    intro w _ w' hc h
    have hkept := hoards_exec c q2 .quit w () w' hc h
    refine ⟨hkept.1, ?_⟩
    have hclose : removeServerSocket.run (w.closing q2) = .ok () w' :=
      (closeConnection_run q2 w).symm.trans h
    obtain ⟨htrace, _, _, hrecords⟩ := removeServerSocket_frame hclose
    unfold World.mass
    rw [htrace, hrecords q2, World.closing_self]
    unfold World.closing Q2Server.disconnect
    simp only [List.length_cons, List.length_append]
    omega
  | ping =>
    have hrest : Hoards q2 (modifyServer q2 fun s ↦
        { s with connection := { s.connection with pingCount := s.connection.pingCount + 1 } }) :=
      hoards_of_moves c (detached_modifyServer q2 _) (moves_modify fun w ↦
        .ping w ((w.servers q2).connection.pingCount + 1))
    refine gathers_bind_left (gathers_onOut fun m m' h ↦ ?_) fun _ ↦
      hoards_bind hrest fun _ ↦ hoards_sendBuffer c q2
    rw [msgWriteByte_length h]
    exact Nat.lt_succ_self _
  | teleport clientId location => exact gathers_teleport c q2 clientId location
  | invite clientId text => cases hi
  | _ => cases ht

private theorem vaIndex_invite {c : Crypto} {q2 : Fin N} {clientId : UInt8} {text : List UInt8}
    {w w' : World N} (h : (invite c q2 clientId text).run w = .ok () w') :
    w'.vaIndex = w.vaIndex + 1 := by
  have hsay (message : List UInt8) (s : Fin N) :
      Keeps World.vaIndex (sayAll c message s) := by
    apply keeps_bind fun _ ↦ rfl
    intro r
    apply keeps_ite (keeps_pure _)
    apply keeps_bind (keeps_zoom fun _ _ ↦ rfl)
    intro _
    exact keeps_send c (fun _ _ _ ↦ rfl) (fun _ _ _ _ ↦ rfl) fun _ ↦ rfl
  obtain ⟨s, w₁, h₁, h⟩ := run_bind_ok h
  obtain ⟨p, w₂, h₂, h⟩ := run_bind_ok h
  obtain ⟨t, w₃, h₃, h⟩ := run_bind_ok h
  obtain ⟨rfl, rfl⟩ := look_ok h₁
  obtain ⟨rfl, rfl⟩ := look_ok h₃
  have hva : w₂.vaIndex = w.vaIndex + 1 := by
    obtain ⟨slot, w₄, h₄, h₂⟩ := run_bind_ok h₂
    obtain ⟨rfl, rfl⟩ := look_ok h₄
    obtain ⟨_, w₅, h₅, h₂⟩ := run_bind_ok h₂
    cases h₅
    split at h₂
    · cases h₂
    · cases h₂
      rfl
  rw [(keeps_forM fun s _ ↦ hsay _ s).ok h, hva]

-- What commands do that neither note nor write anything for a server that is not connected: each
-- invitation among them takes a buffer of `va`.
private theorem vaIndex_execAll {c : Crypto} {q2 : Fin N} {cmds : List Command} {w w' : World N}
    (hcmds : ∀ b ∈ cmds, b.tells = true ∨ b.isInvite = true)
    (h : (forM cmds (exec c q2)).run w = .ok () w') :
    w'.vaIndex = w.vaIndex + UInt16.ofNat (cmds.countP Command.isInvite) := by
  induction cmds generalizing w with
  | nil =>
    cases h
    exact (UInt16.add_zero _).symm
  | cons cmd cmds ih =>
    rw [List.forM_cons] at h
    obtain ⟨_, w₁, h₁, h⟩ := run_bind_ok h
    rw [ih (fun b hb ↦ hcmds b (List.mem_cons_of_mem _ hb)) h]
    cases hi : cmd.isInvite with
    | true =>
      cases cmd with
      | invite clientId text =>
        rw [List.countP_cons_of_pos hi, vaIndex_invite h₁, UInt16.ofNat_add, UInt16.add_assoc,
          UInt16.add_comm 1]
        rfl
      | _ => cases hi
    | false =>
      have ht : cmd.tells = true := (hcmds cmd List.mem_cons_self).resolve_right (by simp [hi])
      rw [List.countP_cons_of_neg (by simp [hi]), exec_tells ht h₁]
      rfl

-- Of the commands of a closed connection that neither note nor write anything, those that take no
-- buffer of `va` act on the table alone.
private theorem tells_of_same {c : Crypto} {q2 : Fin N} {cmds : List Command} {w : World N}
    (hclosed : (w.servers q2).connected = false) (hlength : cmds.length < 0x10000)
    (h : (forM cmds (exec c q2)).run w = .ok () w) : ∀ b ∈ cmds, b.tells = true := by
  have hquiet : ∀ b ∈ cmds, b.tells = true ∨ b.isInvite = true := by
    intro b hb
    by_contra hloud
    obtain ⟨ht, hi⟩ := not_or.mp hloud
    obtain ⟨before, after, rfl⟩ := List.append_of_mem hb
    have hgathers : Gathers q2 (forM (before ++ b :: after) (exec c q2)) := by
      have hall (l : List Command) : Hoards q2 (forM l (exec c q2)) :=
        hoards_of_moves c (detached_forM fun b ↦ detached_exec c q2 b)
          (moves_execAll c q2 (fun _ ↦ trivial) trivial l)
      rw [List.forM_append, List.forM_cons]
      apply gathers_bind_right (hall before)
      intro _
      exact gathers_bind_left (gathers_exec c q2 (Bool.eq_false_iff.mpr ht)
        (Bool.eq_false_iff.mpr hi)) fun _ ↦ hall after
    exact Nat.lt_irrefl _ (hgathers w () w hclosed h).2
  have hcount : UInt16.ofNat (cmds.countP Command.isInvite) = 0 :=
    UInt16.left_eq_add.mp (vaIndex_execAll hquiet h)
  have hnone : cmds.countP Command.isInvite = 0 := by
    have hle : cmds.countP Command.isInvite ≤ cmds.length := List.countP_le_length
    have hmod := congrArg UInt16.toNat hcount
    rw [UInt16.toNat_ofNat', Nat.mod_eq_of_lt (by omega)] at hmod
    exact hmod
  intro b hb
  exact (hquiet b hb).resolve_right (List.countP_eq_zero.mp hnone b hb)

-- What the handler of a closing command goes on to do behind `CloseConnection`.
private def resuming (c : Crypto) (q2 : Fin N) : Command → M N Unit
  | .auth _ => acceptAuth c q2
  | _ => pure ()

private theorem exec_closing {c : Crypto} {q2 : Fin N} {cmd : Command} {w w' : World N}
    (hcloses : cmd.sessionOp c (w.servers q2) = some .close)
    (h : (exec c q2 cmd).run w = .ok () w') :
    ∃ w₁, (closing c q2 cmd).run w = .ok () w₁ ∧ (w₁.servers q2).connected = false ∧
      (resuming c q2 cmd).run w₁ = .ok () w' := by
  cases cmd with
  | auth cipher =>
    obtain ⟨b, w₁, h₁, h⟩ := run_bind_ok h
    have hb : b = (w.servers q2).accepts c cipher := (checkAnswer_ok h₁).1
    have hop : some (if (w.servers q2).accepts c cipher then SessionOp.grant else .close) =
        some .close := hcloses
    rw [← hb] at hop
    cases b with
    | true => cases hop
    | false =>
      obtain ⟨_, w₂, h₂, h⟩ := run_bind_ok h
      refine ⟨w₂, ?_, ?_, h⟩
      · unfold closing
        rw [run_bind_of_ok h₁]
        exact h₂
      · obtain ⟨_, w₃, _, h₂⟩ := run_bind_ok h₂
        obtain ⟨_, w₄, _, h₂⟩ := run_bind_ok h₂
        exact closeConnection_disconnects h₂
  | quit => exact ⟨w', h, closeConnection_disconnects h, rfl⟩
  | _ => cases hcloses

private theorem detached_closing (c : Crypto) (q2 : Fin N) (cmd : Command) :
    Detached (closing c q2 cmd) := by
  unfold closing
  split
  · exact detached_bind (detached_checkAnswer c q2 _) fun _ ↦ detached_refuseAuth c q2
  · exact detached_closeConnection q2

-- A message with a closing command has a state right after the close, and nothing has happened
-- since exactly if it is still that state.
private theorem parseMessage_closing {c : Crypto} {q2 : Fin N} {w w' : World N}
    {pre behind : List Command} {cmd : Command} (hrun : (parseMessage c q2).run w = .ok () w')
    (hcommands : (w.servers q2).commands c w.msg = some (pre ++ cmd :: behind))
    (hcloses : cmd.sessionOp c (w.servers q2) = some .close) :
    behind.length < 0x10000 ∧ ∃ w₁ w₂, (NothingBehind c q2 pre cmd w w' ↔ w' = w₂) ∧
      (w₁.servers q2).table = pre.foldl (fun t b ↦ b.onTable t) (w.servers q2).table ∧
      (closing c q2 cmd).run w₁ = .ok () w₂ ∧ (w₂.servers q2).connected = false ∧
      (do resuming c q2 cmd; forM behind (exec c q2)).run w₂ = .ok () w' := by
  obtain ⟨_, w₀, h₀, hloop⟩ := run_bind_ok hrun
  have hdecrypted := (decryptMessage_ok h₀).2
  obtain ⟨cmds, m, hread, hexec⟩ := (parseLoop_splits c q2 parseRounds _ _ _).mp hloop
  have hcmds : cmds = pre ++ cmd :: behind := by
    have hread' : (readCommands parseRounds).run ((w.servers q2).plainMessage c w.msg) =
        .ok cmds m := by
      rw [hdecrypted] at hread
      exact hread
    unfold Q2Server.commands at hcommands
    rw [hread'] at hcommands
    exact Option.some.inj hcommands
  have hlength := readCommands_length_le hread
  subst hcmds
  rw [List.length_append, List.length_cons] at hlength
  -- The commands before the closing one, the close, and what comes behind it.
  obtain ⟨w₁, hpre, hexec⟩ := run_forM_append_ok hexec
  rw [List.forM_cons] at hexec
  obtain ⟨_, w₃, hcmd, hbehind⟩ := run_bind_ok hexec
  have hservers : (inMsg.set m w₀).servers = w.servers := by
    rw [hdecrypted]
    rfl
  have hcred : (w₁.servers q2).credentials = (w.servers q2).credentials := by
    rw [← hservers]
    exact (keeps_forM fun b _ ↦ keeps_credentials_exec c q2 q2 b).ok hpre
  obtain ⟨w₂, hclose, hclosed, hresume⟩ :=
    exec_closing ((sessionOp_congr c hcred cmd).trans hcloses) hcmd
  refine ⟨by unfold msgSize at hlength; omega, w₁, w₂, ?_, ?_, hclose, hclosed, ?_⟩
  · -- Neither part looks at the message.
    have hdetached : Detached (do forM pre (exec c q2); closing c q2 cmd) :=
      detached_bind (detached_forM fun b ↦ detached_exec c q2 b) fun _ ↦ detached_closing c q2 cmd
    have hrun₂ : (do forM pre (exec c q2); closing c q2 cmd).run (inMsg.set m w₀) = .ok () w₂ := by
      rw [run_bind_of_ok hpre]
      exact hclose
    have huntil : (parseUntilClose c q2 pre cmd).run w = .ok () (inMsg.set w₀.msg w₂) := by
      unfold parseUntilClose
      rw [run_bind_of_ok h₀]
      have hset := hdetached.blind.run_set w₀.msg hrun₂
      rw [inMsg.set_set] at hset
      exact hset
    have hmsg : w'.msg = w₂.msg := by
      have hkept : Keeps World.msg (do resuming c q2 cmd; forM behind (exec c q2)) := by
        refine keeps_bind ?_ fun _ ↦ (detached_forM fun b ↦ detached_exec c q2 b).blind.keeps
        cases cmd with
        | auth cipher => exact (talks_acceptAuth c q2).detached.blind.keeps
        | _ => exact keeps_pure _
      apply hkept.ok (a := ())
      rw [run_bind_of_ok hresume]
      exact hbehind
    constructor
    · rintro ⟨w₄, h₄, he⟩
      rw [huntil] at h₄
      cases h₄
      calc w' = { w'.unparsed with msg := w'.msg } := rfl
        _ = { w₂.unparsed with msg := w₂.msg } := by rw [he, hmsg]; rfl
        _ = w₂ := rfl
    · intro he
      exact ⟨_, huntil, by rw [he]; rfl⟩
  · rw [execAll_table hpre]
    exact congrArg (fun s : Fin N → Q2Server ↦ pre.foldl (fun t b ↦ b.onTable t) (s q2).table)
      hservers
  · rw [run_bind_of_ok hresume]
    exact hbehind

/-- Nothing behind a closing command has an effect exactly if the command is QUIT and the commands
behind it act on nothing but the player table and the map, which they leave as they were. -/
theorem nothing_behind_close_iff (c : Crypto) (q2 : Fin N) (w w' : World N)
    (pre behind : List Command) (cmd : Command) (hrun : (parseMessage c q2).run w = .ok () w')
    (hcommands : (w.servers q2).commands c w.msg = some (pre ++ cmd :: behind))
    (hcloses : cmd.sessionOp c (w.servers q2) = some .close) :
    NothingBehind c q2 pre cmd w w' ↔
      cmd = .quit ∧ (∀ b ∈ behind, b.tells = true) ∧
        (pre ++ behind).foldl (fun t b ↦ b.onTable t) (w.servers q2).table =
          pre.foldl (fun t b ↦ b.onTable t) (w.servers q2).table := by
  obtain ⟨hlength, w₁, w₂, hiff, htable, hclose, hclosed, hrest⟩ :=
    parseMessage_closing hrun hcommands hcloses
  obtain ⟨_, w₃, hresume, hbehind⟩ := run_bind_ok hrest
  rw [hiff, List.foldl_append, ← htable]
  cases cmd with
  | auth cipher =>
    -- The byte of the acknowledgement stays in the buffer.
    have hgathers : Gathers q2 (acceptAuth c q2) :=
      gathers_bind_left (gathers_onOut fun m m' h ↦ by
        rw [msgWriteByte_length h]
        exact Nat.lt_succ_self _) fun _ ↦ hoards_sendBuffer c q2
    have hhoards : Hoards q2 (forM behind (exec c q2)) :=
      hoards_of_moves c (detached_forM fun b ↦ detached_exec c q2 b)
        (moves_execAll c q2 (fun _ ↦ trivial) trivial behind)
    have hlt := (gathers_bind_left hgathers (fun _ ↦ hhoards) w₂ () w' hclosed hrest).2
    constructor
    · rintro rfl
      exact absurd hlt (Nat.lt_irrefl _)
    · rintro ⟨hquit, _⟩
      cases hquit
  | quit =>
    cases hresume
    have hkept : (w₂.servers q2).table = (w₁.servers q2).table :=
      (keeps_closeConnection (v := Q2Server.table) (fun _ ↦ rfl) q2 q2).ok hclose
    rw [← hkept]
    constructor
    · rintro rfl
      exact ⟨rfl, tells_of_same hclosed hlength hbehind, (execAll_table hbehind).symm⟩
    · rintro ⟨_, htells, hsame⟩
      rw [execAll_tells htells hbehind]
      apply World.updateServer_eq_self
      rw [hsame, Q2Server.withTable_table]
  | _ => cases hcloses

-- The server of the sample quits, and a line of its console comes behind that.
private def sampleQuit : Recv := .packet ⟨[2, 7, 0, 120, 0], by decide⟩

/-- A QUIT is the last command of a message. -/
theorem nothing_behind_close_sample :
    ∃ w w' : World 1, (w.servers 0).connected = true ∧
      NothingBehind Crypto.clear 0 [] .quit w w' := by
  have h : (follow (step Crypto.clear) Unguarded sampleBound sampleStart).any (fun w ↦
      (w.servers 0).connected &&
        decide ((w.servers 0).commands Crypto.clear sampleQuit.buffer =
          some ([] ++ .quit :: [.print 0 [120]])) &&
        (returned (parseMessage Crypto.clear 0) (w.receiving sampleQuit 1)).isSome) = true := by
    decide +kernel
  obtain ⟨w, _, hw⟩ := Run.exists_of_follow h
  simp only [Bool.and_eq_true, decide_eq_true_eq] at hw
  rcases hw with ⟨⟨hconnected, hcommands⟩, hreturned⟩
  obtain ⟨_, w', hrun, _⟩ := exists_of_returned (p := fun _ ↦ true) (by
    rw [Option.any_true]
    exact hreturned)
  refine ⟨w.receiving sampleQuit 1, w', hconnected, ?_⟩
  refine (nothing_behind_close_iff _ _ _ _ [] [.print 0 [120]] .quit hrun hcommands rfl).mpr
    ⟨rfl, ?_, rfl⟩
  decide

/-- A second QUIT closes the connection once more. -/
theorem quit_behind_quit :
    ¬ ∀ (ms : List Move) (w : World 1), Run (step Crypto.clear) Unguarded ms sampleStart w →
      ∀ (recv : Recv) (i : Nat) (q2 : Fin 1) (w' : World 1), w.Client i →
        w.getServer i = some q2 →
        (parseMessage Crypto.clear q2).run (w.receiving recv i) = .ok () w' →
        ∀ (pre behind : List Command) (cmd : Command),
          (w.servers q2).commands Crypto.clear recv.buffer = some (pre ++ cmd :: behind) →
          (∀ b ∈ pre, b.sessionOp Crypto.clear (w.servers q2) ≠ some .close) →
          cmd.sessionOp Crypto.clear (w.servers q2) = some .close →
          NothingBehind Crypto.clear q2 pre cmd (w.receiving recv i) w' := by
  let recv : Recv := .packet ⟨[2, 2], by decide⟩
  have h : (follow (step Crypto.clear) Unguarded sampleBound sampleStart).any (fun w ↦
      decide (w.Client 1) && decide (w.getServer 1 = some 0) &&
        decide ((w.servers 0).commands Crypto.clear recv.buffer = some ([] ++ .quit :: [.quit])) &&
        (returned (parseMessage Crypto.clear 0) (w.receiving recv 1)).any fun w' ↦
          (returned (parseUntilClose Crypto.clear 0 [] .quit) (w.receiving recv 1)).any fun w₁ ↦
            decide (w'.trace ≠ w₁.trace)) = true := by decide +kernel
  obtain ⟨w, hrun, hw⟩ := Run.exists_of_follow h
  simp only [Bool.and_eq_true, decide_eq_true_eq] at hw
  rcases hw with ⟨⟨⟨hslot, howner⟩, hcommands⟩, hreturned⟩
  obtain ⟨_, w', hparse, hreturned⟩ := exists_of_returned hreturned
  obtain ⟨_, w₁, huntil, htrace⟩ := exists_of_returned hreturned
  intro hall
  obtain ⟨w₂, huntil', he⟩ := hall _ w hrun recv 1 0 w' hslot howner hparse [] [.quit] .quit
    hcommands (fun _ hb ↦ (List.not_mem_nil hb).elim) rfl
  rw [huntil] at huntil'
  cases huntil'
  have hsame : w'.trace = w₁.trace := (congrArg World.trace he :)
  simp [hsame] at htrace

end Q2Admin
