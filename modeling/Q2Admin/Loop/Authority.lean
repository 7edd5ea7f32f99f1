import Q2Admin.Loop.Trust
import Q2Admin.Command.Frame
import Q2Admin.Command.Table

/-!
# What an untrusted server can do

Library `Q2Admin.Loop`. The handlers do not ask whether their server is trusted. A message
of an untrusted server leaves its players and its map alone and stays off other sockets
only if no command in it, up to an AUTH that succeeds, is one that would change them.
-/

namespace Q2Admin

open Exec

variable {N : Nat}

/-- The states in which `RunServer` calls `ParseMessage` for a server: its message has been
received, or its HELLO has been answered and the rest of the first message is left. -/
inductive ParseCall (c : Crypto) (rows : Fin N → Row) (listener : Nat) (junk : Nat → PollFd)
    (q2 : Fin N) : World N → Prop
  | message {ms : List Move} {w : World N}
      (run : Run (step c) Unguarded ms (initial rows listener junk) w)
      (slot : w.scan < w.socketCount) (client : (w.sockets w.scan).fd ≠ w.listener)
      (owner : w.getServer w.scan = some q2) (recv : Recv) :
      ParseCall c rows listener junk q2 (w.receiving recv w.scan)
  | hello {ms : List Move} {w w' : World N}
      (run : Run (step c) Unguarded ms (initial rows listener junk) w)
      (slot : w.scan < w.socketCount) (client : (w.sockets w.scan).fd ≠ w.listener)
      (owner : w.getServer w.scan = none) (recv : Recv) (env : HelloEnv) (h : Hello)
      (m : MsgBuffer) (read : readFirst.run recv.buffer = .ok (.hello h) m)
      (register : (registerHello c env w.scan h).run { w.receiving recv w.scan with msg := m } =
        .ok (some q2) w') :
      ParseCall c rows listener junk q2 w'

/-- Table and records agree whenever a message is parsed. -/
theorem ParseCall.wf {c : Crypto} {rows : Fin N → Row} {listener : Nat} {junk : Nat → PollFd}
    {q2 : Fin N} {w : World N} (h : ParseCall c rows listener junk q2 w) : w.core.Wf := by
  cases h with
  | message run _ _ owner recv =>
    rw [core_receiving]
    exact run.wf rows listener junk
  | @hello ms v _ run slot client owner recv env hello m read register =>
    have hw := run.wf rows listener junk
    have hcore : World.core { v.receiving recv v.scan with msg := m } = v.core :=
      core_receiving v recv v.scan
    have hslot : v.core.InTable v.scan := by
      refine ⟨Nat.one_le_iff_ne_zero.mpr fun hz ↦ client ?_, slot⟩
      rw [hz]
      exact hw.listener
    obtain ⟨_, hreg⟩ := seen_registerHello register
    split at hreg
    · cases hreg.1
    · next q _ =>
      rw [hreg.2.1, hcore]
      exact Core.wf_bind hw q _ _ hslot (getServer_none owner)

/-- The server's players, their number and its map are what they were, and nothing has been
sent on a socket other than its own. -/
structure Untouched (q2 : Fin N) (w w' : World N) : Prop where
  table : (w'.servers q2).table = (w.servers q2).table
  sends : ∃ l, w'.sends = l ++ w.sends ∧
    ∀ e ∈ l, ∃ plain wire, e = .sent (w.servers q2).socket plain wire

/-- As long as the server is not trusted, every round of the loop of `ParseMessage` leaves
everything untouched. -/
def Powerless (c : Crypto) (q2 : Fin N) (w : World N) : Prop :=
  ∀ (n : Nat) (w' : World N),
    (decryptMessage c q2 >>= fun _ ↦ parseLoop c q2 n).run w = .ok () w' →
    (w'.servers q2).trusted = false → Untouched q2 w w'

/-- The last entry of a PLAYERLIST for a slot, when the first entry goes to slot `i`. -/
def lastEntry : UInt8 → List (UInt8 × List UInt8) → UInt8 → Option (UInt8 × List UInt8)
  | _, [], _ => none
  | i, e :: entries, slot =>
    (lastEntry (e.1 + 1) entries slot).or (if slot = i then some e else none)

/-- The command changes no player and not the map, and it is no invitation while another
server is connected on another socket. -/
def Command.Harmless (q2 : Fin N) (w : World N) : Command → Prop
  | .connect _ _ => False
  | .disconnect _ => False
  | .playerUpdate clientId userinfo =>
    Player.entered clientId userinfo = (w.servers q2).players clientId
  | .playerList count entries =>
    count = (w.servers q2).playercount ∧
      ∀ slot e, lastEntry 0 entries slot = some e →
        Player.entered e.1 e.2 = (w.servers q2).players slot
  | .map name => strncpy 20 name = (w.servers q2).map
  | .invite _ _ => ∀ s, s ≠ q2 → (w.servers s).connected = true →
      (w.servers s).socket = (w.servers q2).socket
  | _ => True

/-- The commands of a message before an AUTH that its server's record accepts. -/
def beforeTrust (c : Crypto) (s : Q2Server) (cmds : List Command) : List Command :=
  cmds.takeWhile fun cmd ↦ cmd.sessionOp c s ≠ some .grant

/-- However far the message can be read, the commands in it before an AUTH that is accepted
are harmless. -/
def HarmlessMessage (c : Crypto) (q2 : Fin N) (w : World N) : Prop :=
  ∀ n cmds m, (readCommands n).run w.msg = .ok cmds m →
    ∀ cmd ∈ beforeTrust c (w.servers q2) cmds, cmd.Harmless q2 w

private theorem update_eq_self_iff {f : UInt8 → Player} {i : UInt8} {p : Player} :
    Function.update f i p = f ↔ p = f i := by
  constructor
  · intro h
    rw [← Function.update_self i p f, h]
  · rintro rfl
    exact Function.update_eq_self i f

private theorem fill_apply (i : UInt8) (entries : List (UInt8 × List UInt8))
    (players : UInt8 → Player) (slot : UInt8) :
    fill i entries players slot =
      ((lastEntry i entries slot).map fun e ↦ Player.entered e.1 e.2).getD (players slot) := by
  induction entries generalizing i players with
  | nil => rfl
  | cons e entries ih =>
    change fill (e.1 + 1) entries (Function.update players i (Player.entered e.1 e.2)) slot = _
    have hlast : lastEntry i (e :: entries) slot =
        (lastEntry (e.1 + 1) entries slot).or (if slot = i then some e else none) := rfl
    rw [ih, hlast]
    cases lastEntry (e.1 + 1) entries slot with
    | some e' => rfl
    | none =>
      by_cases hs : slot = i
      · rw [hs, Function.update_self, if_pos rfl]
        rfl
      · rw [Function.update_of_ne hs, if_neg hs]
        rfl

private theorem fill_eq_self_iff {entries : List (UInt8 × List UInt8)}
    {players : UInt8 → Player} :
    fill 0 entries players = players ↔
      ∀ slot e, lastEntry 0 entries slot = some e → Player.entered e.1 e.2 = players slot := by
  constructor
  · intro h slot e he
    have hs := congrFun h slot
    rw [fill_apply, he] at hs
    exact hs
  · intro h
    funext slot
    rw [fill_apply]
    cases he : lastEntry 0 entries slot with
    | none => rfl
    | some e => exact h slot e he

private theorem add_one_ne (n : UInt8) : n + 1 ≠ n := by
  intro h
  have hz : (1 : UInt8) = 0 := by
    calc (1 : UInt8) = n + 1 - n := by rw [UInt8.add_comm, UInt8.add_sub_cancel]
      _ = 0 := by rw [h, UInt8.sub_self]
  cases hz

private theorem sub_one_ne (n : UInt8) : n - 1 ≠ n := fun h ↦
  add_one_ne (n - 1) (by rw [UInt8.sub_add_cancel, h])

-- A command other than an invitation sends to its own server only, so what it does to the table
-- decides.
private theorem untouched_of_sendsTo {q2 : Fin N} {w w' : World N} (hw : w.core.Wf)
    (h : SendsTo q2 w w') :
    Untouched q2 w w' ↔ (w'.servers q2).table = (w.servers q2).table := by
  refine ⟨Untouched.table, fun ht ↦ ⟨ht, ?_⟩⟩
  rcases h with ⟨l, hl, hto⟩
  refine ⟨l, hl, fun e he ↦ ?_⟩
  obtain ⟨hc, plain, wire, hsent⟩ := hto e he
  have hfd : w.wireOf q2 = (w.servers q2).socket := (hw.slot q2 hc).2
  rw [hfd] at hsent
  exact ⟨plain, wire, hsent⟩

private theorem invite_untouched {c : Crypto} {q2 : Fin N} {clientId : UInt8}
    {text : List UInt8} {w w' : World N} (hw : w.core.Wf)
    (h : (exec c q2 (.invite clientId text)).run w = .ok () w') :
    Untouched q2 w w' ↔ (Command.invite clientId text).Harmless q2 w := by
  obtain ⟨l, hl, hto, hall⟩ := sends_invite h
  constructor
  · rintro ⟨_, l', hl', hown⟩ s _ hc
    obtain ⟨plain, wire, hmem⟩ := hall s hc
    rw [List.append_cancel_right (hl.symm.trans hl')] at hmem
    obtain ⟨p, x, he⟩ := hown _ hmem
    have hfd : w.wireOf s = (w.servers s).socket := (hw.slot s hc).2
    rw [← hfd]
    exact (Event.sent.inj he).1
  · intro hharm
    refine ⟨exec_table h, l, hl, fun e he ↦ ?_⟩
    obtain ⟨s, hc, plain, wire, hsent⟩ := hto e he
    refine ⟨plain, wire, ?_⟩
    have hfd : w.wireOf s = (w.servers s).socket := (hw.slot s hc).2
    rw [hsent, hfd]
    by_cases hs : s = q2
    · rw [hs]
    · rw [hharm s hs hc]

/-- A command that returns leaves everything untouched exactly if it is harmless. -/
theorem exec_untouched_iff {c : Crypto} {q2 : Fin N} {cmd : Command} {w w' : World N}
    (hw : w.core.Wf) (h : (exec c q2 cmd).run w = .ok () w') :
    Untouched q2 w w' ↔ cmd.Harmless q2 w := by
  have ht := exec_table h
  have hown (hcmd : ∀ clientId text, cmd ≠ .invite clientId text) :
      Untouched q2 w w' ↔ cmd.onTable (w.servers q2).table = (w.servers q2).table := by
    rw [untouched_of_sendsTo hw (sendsTo_exec hcmd h), ht]
  cases cmd with
  | invite clientId text => exact invite_untouched hw h
  | connect clientId userinfo =>
    refine (hown fun _ _ ↦ Command.noConfusion).trans ⟨fun he ↦ ?_, False.elim⟩
    exact add_one_ne _ (congrArg Table.playercount he)
  | disconnect clientId =>
    refine (hown fun _ _ ↦ Command.noConfusion).trans ⟨fun he ↦ ?_, False.elim⟩
    exact sub_one_ne _ (congrArg Table.playercount he)
  | playerUpdate clientId userinfo =>
    refine (hown fun _ _ ↦ Command.noConfusion).trans ⟨fun he ↦ ?_, fun he ↦ ?_⟩
    · exact update_eq_self_iff.mp (congrArg Table.players he)
    · exact congrArg (fun p ↦ { (w.servers q2).table with players := p })
        (update_eq_self_iff.mpr he)
  | playerList count entries =>
    refine (hown fun _ _ ↦ Command.noConfusion).trans ⟨fun he ↦ ?_, fun he ↦ ?_⟩
    · exact ⟨congrArg Table.playercount he, fill_eq_self_iff.mp (congrArg Table.players he)⟩
    · exact congrArg₂ (fun p n ↦ { (w.servers q2).table with players := p, playercount := n })
        (fill_eq_self_iff.mpr he.2) he.1
  | map name =>
    refine (hown fun _ _ ↦ Command.noConfusion).trans ⟨fun he ↦ congrArg Table.map he, fun he ↦ ?_⟩
    exact congrArg (fun m ↦ { (w.servers q2).table with map := m }) he
  | _ =>
    exact (hown fun _ _ ↦ Command.noConfusion).trans ⟨fun _ ↦ trivial, fun _ ↦ rfl⟩

-- What no command of the server changes: table and records agree, the sockets are the same, the
-- others stay connected, and an AUTH has the same answer.
private structure Kept (q2 : Fin N) (w w' : World N) : Prop where
  wf : w'.core.Wf
  socket : (w'.servers q2).socket = (w.servers q2).socket
  others : ∀ s, s ≠ q2 → (w'.servers s).connected = (w.servers s).connected ∧
    (w'.servers s).socket = (w.servers s).socket

private theorem kept_apply {k : Core N} (hk : k.Wf) (q2 : Fin N) (op : SessionOp) :
    (k.apply q2 op).Wf ∧ (∀ s, ((k.apply q2 op).records s).socket = (k.records s).socket) ∧
      ∀ s, s ≠ q2 → ((k.apply q2 op).records s).connected = (k.records s).connected := by
  cases op with
  | grant =>
    exact ⟨Core.wf_grant hk q2, Core.grant_socket k q2, fun s _ ↦ Core.grant_connected k q2 s⟩
  | close =>
    refine ⟨Core.wf_close hk q2, Core.close_socket k q2, fun s hs ↦ ?_⟩
    change ((k.close q2).records s).connected = _
    rw [Core.close_connected, decide_eq_true hs, Bool.true_and]

private theorem kept_exec {c : Crypto} {q2 : Fin N} {cmd : Command} {w w' : World N}
    (hw : w.core.Wf) (h : (exec c q2 cmd).run w = .ok () w') : Kept q2 w w' := by
  have hc := core_exec h
  cases hop : cmd.sessionOp c (w.servers q2) with
  | none =>
    rw [hop] at hc
    have hcore : w'.core = w.core := hc
    refine ⟨by rwa [hcore], ?_, fun s _ ↦ ⟨connected_of_core hcore s, ?_⟩⟩
    · exact congrArg (fun k : Core N ↦ (k.records q2).socket) hcore
    · exact congrArg (fun k : Core N ↦ (k.records s).socket) hcore
  | some op =>
    rw [hop] at hc
    have hcore : w'.core = w.core.apply q2 op := hc
    obtain ⟨hwf, hsocket, hconnected⟩ := kept_apply hw q2 op
    have hs (s : Fin N) : (w'.servers s).socket = (w.servers s).socket :=
      (congrArg (fun k : Core N ↦ (k.records s).socket) hcore).trans (hsocket s)
    refine ⟨by rwa [hcore], hs q2, fun s hne ↦ ⟨?_, hs s⟩⟩
    exact (congrArg (fun k : Core N ↦ (k.records s).connected) hcore).trans (hconnected s hne)

private theorem Kept.trans {q2 : Fin N} {w w₁ w' : World N} (h : Kept q2 w w₁)
    (h' : Kept q2 w₁ w') : Kept q2 w w' :=
  ⟨h'.wf, h'.socket.trans h.socket, fun s hs ↦
    ⟨(h'.others s hs).1.trans (h.others s hs).1, (h'.others s hs).2.trans (h.others s hs).2⟩⟩

private theorem kept_execAll {c : Crypto} {q2 : Fin N} {cmds : List Command} {w w' : World N}
    (hw : w.core.Wf) (h : (forM cmds (exec c q2)).run w = .ok () w') : Kept q2 w w' :=
  forM_ok (P := fun w₁ ↦ Kept q2 w w₁)
    (fun _ _ _ _ hkept h₁ ↦ hkept.trans (kept_exec hkept.wf h₁))
    ⟨hw, rfl, fun _ _ ↦ ⟨rfl, rfl⟩⟩ h

private theorem harmless_congr {q2 : Fin N} {w w' : World N} (hk : Kept q2 w w')
    (ht : (w'.servers q2).table = (w.servers q2).table) (cmd : Command) :
    cmd.Harmless q2 w' ↔ cmd.Harmless q2 w := by
  have hp : (w'.servers q2).players = (w.servers q2).players := congrArg Table.players ht
  have hn : (w'.servers q2).playercount = (w.servers q2).playercount :=
    congrArg Table.playercount ht
  have hm : (w'.servers q2).map = (w.servers q2).map := congrArg Table.map ht
  cases cmd with
  | playerUpdate clientId userinfo =>
    unfold Command.Harmless
    rw [hp]
  | playerList count entries =>
    unfold Command.Harmless
    rw [hp, hn]
  | map name =>
    unfold Command.Harmless
    rw [hm]
  | invite clientId text =>
    unfold Command.Harmless
    refine forall_congr' fun s ↦ forall_congr' fun hs ↦ ?_
    rw [(hk.others s hs).1, (hk.others s hs).2, hk.socket]
  | _ => exact Iff.rfl

private theorem untouched_trans {q2 : Fin N} {w w₁ w' : World N} (hk : Kept q2 w w₁)
    (h : Untouched q2 w w₁) (h' : Untouched q2 w₁ w') : Untouched q2 w w' := by
  obtain ⟨l, hl, hown⟩ := h.sends
  obtain ⟨l', hl', hown'⟩ := h'.sends
  refine ⟨h'.table.trans h.table, l' ++ l, by rw [hl', hl, List.append_assoc], fun e he ↦ ?_⟩
  rcases List.mem_append.mp he with he | he
  · rw [← hk.socket]
    exact hown' e he
  · exact hown e he

private theorem untouched_of_untouched {c : Crypto} {q2 : Fin N} {cmd : Command}
    {w w₁ w' : World N} (hk : Kept q2 w w₁) (h : (exec c q2 cmd).run w₁ = .ok () w')
    (h₁ : Untouched q2 w w₁) (h₂ : Untouched q2 w w') : Untouched q2 w₁ w' := by
  obtain ⟨l, hl⟩ := sends_exec h
  refine ⟨h₂.table.trans h₁.table.symm, l, hl, fun e he ↦ ?_⟩
  obtain ⟨l₁, hl₁, _⟩ := h₁.sends
  obtain ⟨l₂, hl₂, hown⟩ := h₂.sends
  have hwhole : l₂ ++ w.sends = (l ++ l₁) ++ w.sends := by
    rw [List.append_assoc, ← hl₁, ← hl, hl₂]
  have happ : l₂ = l ++ l₁ := List.append_cancel_right hwhole
  rw [hk.socket]
  exact hown e (by rw [happ]; exact List.mem_append_left _ he)

private theorem untouched_of_harmless {c : Crypto} {q2 : Fin N} {cmds : List Command}
    {w w' : World N} (hw : w.core.Wf) (h : (forM cmds (exec c q2)).run w = .ok () w')
    (hharm : ∀ cmd ∈ cmds, cmd.Harmless q2 w) : Untouched q2 w w' := by
  induction cmds generalizing w with
  | nil =>
    cases h
    exact ⟨rfl, [], rfl, fun _ he ↦ (List.not_mem_nil he).elim⟩
  | cons cmd cmds ih =>
    rw [List.forM_cons] at h
    obtain ⟨_, w₁, h₁, h₂⟩ := run_bind_ok h
    have hk := kept_exec hw h₁
    have hun := (exec_untouched_iff hw h₁).mpr (hharm cmd List.mem_cons_self)
    refine untouched_trans hk hun (ih hk.wf h₂ fun cmd' hcmd ↦ ?_)
    exact (harmless_congr hk hun.table cmd').mpr (hharm cmd' (List.mem_cons_of_mem cmd hcmd))

private theorem harmless_of_untouched {c : Crypto} {q2 : Fin N} {cmds : List Command}
    {cmd : Command} {w w₁ w₂ : World N} (hw : w.core.Wf)
    (h₁ : (forM cmds (exec c q2)).run w = .ok () w₁) (h₂ : (exec c q2 cmd).run w₁ = .ok () w₂)
    (hun₁ : Untouched q2 w w₁) (hun₂ : Untouched q2 w w₂) : cmd.Harmless q2 w := by
  have hk := kept_execAll hw h₁
  have hun := untouched_of_untouched hk h₂ hun₁ hun₂
  exact (harmless_congr hk hun₁.table cmd).mp ((exec_untouched_iff hk.wf h₂).mp hun)

/-- An untrusted server stays so exactly as long as no AUTH in its message is accepted. -/
theorem untrusted_iff {c : Crypto} {q2 : Fin N} {cmds : List Command} {w w' : World N}
    (hu : (w.servers q2).trusted = false) (h : (forM cmds (exec c q2)).run w = .ok () w') :
    (w'.servers q2).trusted = false ↔
      ∀ cmd ∈ cmds, cmd.sessionOp c (w.servers q2) ≠ some .grant := by
  have htrust : (w'.servers q2).trusted = true ↔
      (w.servers q2).trusted = true ∨ .grant ∈ sessionOps c (w.servers q2) cmds := by
    have ht := Core.trusted_applyAll w.core q2 q2 (sessionOps c (w.servers q2) cmds)
    rwa [← core_execAll h, and_iff_right rfl] at ht
  rw [← Bool.not_eq_true, htrust, hu]
  unfold sessionOps
  simp only [Bool.false_eq_true, false_or, List.mem_filterMap, not_exists, not_and]

private theorem mem_beforeTrust {c : Crypto} {s : Q2Server} {cmds : List Command} {cmd : Command}
    (h : cmd ∈ beforeTrust c s cmds) :
    ∃ pre, pre ++ [cmd] <+: cmds ∧ ∀ x ∈ pre ++ [cmd], x.sessionOp c s ≠ some .grant := by
  induction cmds with
  | nil => exact (List.not_mem_nil h).elim
  | cons x cmds ih =>
    unfold beforeTrust at h
    by_cases hx : x.sessionOp c s ≠ some .grant
    · rw [List.takeWhile_cons, if_pos (decide_eq_true hx)] at h
      rcases List.mem_cons.mp h with rfl | h
      · exact ⟨[], ⟨cmds, rfl⟩, fun y hy ↦ by rwa [List.mem_singleton.mp hy]⟩
      · obtain ⟨pre, hpre, hno⟩ := ih h
        refine ⟨x :: pre, List.cons_prefix_cons.mpr ⟨rfl, hpre⟩, fun y hy ↦ ?_⟩
        rcases List.mem_cons.mp hy with rfl | hy
        · exact hx
        · exact hno y hy
    · rw [List.takeWhile_cons, if_neg (by simpa using hx)] at h
      exact (List.not_mem_nil h).elim

-- What the first rounds of an untrusted server's message come to.
private theorem rounds_ok {c : Crypto} {q2 : Fin N} {n : Nat} {w w' : World N}
    (hu : (w.servers q2).trusted = false)
    (h : (decryptMessage c q2 >>= fun _ ↦ parseLoop c q2 n).run w = .ok () w') :
    ∃ cmds m, (readCommands n).run w.msg = .ok cmds m ∧
      (forM cmds (exec c q2)).run { w with msg := m } = .ok () w' := by
  have hplain : (w.servers q2).secure = false := by
    unfold Q2Server.secure
    rw [hu, Bool.and_false]
  rw [run_bind_of_ok (decryptMessage_of_plain hplain)] at h
  exact (parseLoop_splits c q2 n _ _ _).mp h

private theorem powerless_of_harmless {c : Crypto} {q2 : Fin N} {w : World N}
    (hw : w.core.Wf) (hu : (w.servers q2).trusted = false) (h : HarmlessMessage c q2 w) :
    Powerless c q2 w := by
  intro n w' hrun hu'
  obtain ⟨cmds, m, hread, hexec⟩ := rounds_ok hu hrun
  have hno := (untrusted_iff (w := { w with msg := m }) hu hexec).mp hu'
  have hbefore : beforeTrust c (w.servers q2) cmds = cmds :=
    List.takeWhile_eq_self_iff.mpr fun cmd hcmd ↦ decide_eq_true (hno cmd hcmd)
  have hharm : ∀ cmd ∈ cmds, cmd.Harmless q2 w := by
    have hall := h n cmds m hread
    rwa [hbefore] at hall
  have hun := untouched_of_harmless (w := { w with msg := m }) hw hexec hharm
  exact ⟨hun.table, hun.sends⟩

private theorem untouched_of_powerless {c : Crypto} {q2 : Fin N} {cmds rest : List Command}
    {m : MsgBuffer} {w w₁ : World N} (hu : (w.servers q2).trusted = false)
    (h : Powerless c q2 w) (hread : (readCommands parseRounds).run w.msg = .ok (cmds ++ rest) m)
    (hno : ∀ cmd ∈ cmds, cmd.sessionOp c (w.servers q2) ≠ some .grant)
    (hexec : (forM cmds (exec c q2)).run { w with msg := m } = .ok () w₁) :
    Untouched q2 w w₁ := by
  obtain ⟨m₁, hread₁⟩ := readCommands_length hread
  have hset := (detached_forM fun cmd ↦ detached_exec c q2 cmd).blind.run_set m₁ hexec
  have hplain : (w.servers q2).secure = false := by
    unfold Q2Server.secure
    rw [hu, Bool.and_false]
  have hrun : (decryptMessage c q2 >>= fun _ ↦ parseLoop c q2 cmds.length).run w =
      .ok () (inMsg.set m₁ w₁) := by
    rw [run_bind_of_ok (decryptMessage_of_plain hplain)]
    exact (parseLoop_splits c q2 cmds.length _ _ _).mpr ⟨cmds, m₁, hread₁, hset⟩
  have hu₁ : (w₁.servers q2).trusted = false :=
    (untrusted_iff (w := { w with msg := m }) hu hexec).mpr hno
  have hun := h cmds.length _ hrun hu₁
  exact ⟨hun.table, hun.sends⟩

private theorem harmless_of_powerless {c : Crypto} {q2 : Fin N} {w w' : World N}
    (hw : w.core.Wf) (hu : (w.servers q2).trusted = false)
    (hrun : (parseMessage c q2).run w = .ok () w') (h : Powerless c q2 w) :
    HarmlessMessage c q2 w := by
  obtain ⟨all, m, hread, hexec⟩ := rounds_ok hu hrun
  intro n cmds m' hread' cmd hcmd
  obtain ⟨pre, ⟨post, hpost⟩, hno⟩ := mem_beforeTrust hcmd
  obtain ⟨rest, rfl⟩ : pre ++ [cmd] <+: all := by
    apply List.IsPrefix.trans ⟨post, hpost⟩
    rw [readCommands_cut hread hread']
    exact List.take_prefix n all
  obtain ⟨w₂, h₂, _⟩ := run_forM_append_ok hexec
  obtain ⟨w₁, h₁, hcmd₂⟩ := run_forM_append_ok h₂
  have hread₁ : (readCommands parseRounds).run w.msg = .ok (pre ++ ([cmd] ++ rest)) m := by
    rw [← List.append_assoc]
    exact hread
  have hun₂ := untouched_of_powerless hu h hread hno h₂
  have hun₁ := untouched_of_powerless hu h hread₁
    (fun x hx ↦ hno x (List.mem_append_left [cmd] hx)) h₁
  have hone : (exec c q2 cmd).run w₁ = .ok () w₂ := by
    obtain ⟨_, w₃, h₃, h₄⟩ := run_bind_ok hcmd₂
    cases h₄
    exact h₃
  exact harmless_of_untouched (w := { w with msg := m }) hw h₁ hone ⟨hun₁.table, hun₁.sends⟩
    ⟨hun₂.table, hun₂.sends⟩

/-- A message of an untrusted server in which no command before an accepted AUTH does harm
leaves the server's players and map and all other sockets alone, and so does no other message
on which `ParseMessage` returns. -/
theorem untrusted_powerless_iff (c : Crypto) (rows : Fin N → Row) (listener : Nat)
    (junk : Nat → PollFd) (q2 : Fin N) (w : World N)
    (hcall : ParseCall c rows listener junk q2 w) (hu : (w.servers q2).trusted = false) :
    (HarmlessMessage c q2 w → Powerless c q2 w) ∧
    ∀ w', (parseMessage c q2).run w = .ok () w' → Powerless c q2 w → HarmlessMessage c q2 w :=
  ⟨powerless_of_harmless hcall.wf hu, fun _ hrun ↦ harmless_of_powerless hcall.wf hu hrun⟩

/-- A server that has said HELLO sends a PING. -/
theorem untrusted_powerless_sample :
    ∃ w : World 1, w.msg.length = 1 ∧ Powerless Crypto.clear 0 w := by
  have h : (follow (step Crypto.clear) Unguarded sampleBound sampleStart).any (fun w ↦
      w.scan == 1 && w.socketCount == 2 && (w.sockets 1).fd == 4 && w.listener == 3 &&
        w.getServer 1 == some 0 && !(w.servers 0).trusted) = true := by decide +kernel
  obtain ⟨w, hrun, hw⟩ := Run.exists_of_follow h
  simp only [Bool.and_eq_true, beq_iff_eq, Bool.not_eq_true'] at hw
  rcases hw with ⟨⟨⟨⟨⟨hscan, hcount⟩, hfd⟩, hl⟩, howner⟩, hu⟩
  let recv : Recv := .packet ⟨[ClientCmd.ping.byte], by decide⟩
  have hcall : ParseCall Crypto.clear _ _ _ 0 (w.receiving recv w.scan) :=
    .message hrun (by omega) (by rw [hscan, hfd, hl]; decide) (by rw [hscan, howner]) recv
  refine ⟨_, rfl, (untrusted_powerless_iff _ _ _ _ _ _ hcall hu).1 fun n cmds m hread cmd hcmd ↦ ?_⟩
  have hall : ∃ m', (readCommands parseRounds).run recv.buffer = .ok [.ping] m' :=
    ⟨_, by rfl⟩
  rcases hall with ⟨m', hall⟩
  have hmem := List.mem_of_mem_take (readCommands_cut hall hread ▸
    (List.takeWhile_subset _ hcmd))
  rw [List.mem_singleton.mp hmem]
  trivial

/-- A CONNECT that comes before any AUTH enters a player. -/
theorem untrusted_connect_counts :
    ¬ ∀ (rows : Fin 1 → Row) (listener : Nat) (junk : Nat → PollFd) (q2 : Fin 1) (w : World 1),
      ParseCall Crypto.clear rows listener junk q2 w → (w.servers q2).trusted = false →
      Powerless Crypto.clear q2 w := by
  let recv : Recv := .packet ⟨[ClientCmd.connect.byte, 0, 110, 0], by decide⟩
  have h : (follow (step Crypto.clear) Unguarded sampleBound sampleStart).any (fun w ↦
      w.scan == 1 && w.socketCount == 2 && (w.sockets 1).fd == 4 && w.listener == 3 &&
        w.getServer 1 == some 0 && !(w.servers 0).trusted && (w.servers 0).playercount == 0 &&
        match (decryptMessage Crypto.clear 0 >>= fun _ ↦ parseLoop Crypto.clear 0 1).run
          (w.receiving recv w.scan) with
        | .ok _ w' => !(w'.servers 0).trusted && (w'.servers 0).playercount == 1
        | .error _ _ => false) = true := by decide +kernel
  obtain ⟨w, hrun, hw⟩ := Run.exists_of_follow h
  simp only [Bool.and_eq_true, beq_iff_eq, Bool.not_eq_true'] at hw
  rcases hw with ⟨⟨⟨⟨⟨⟨⟨hscan, hcount⟩, hfd⟩, hl⟩, howner⟩, hu⟩, hnone⟩, hmatch⟩
  have hcall : ParseCall Crypto.clear _ _ _ 0 (w.receiving recv w.scan) :=
    .message hrun (by omega) (by rw [hscan, hfd, hl]; decide) (by rw [hscan, howner]) recv
  intro hall
  split at hmatch
  · next u w' hround =>
    obtain ⟨hu', hone⟩ := Bool.and_eq_true_iff.mp hmatch
    have htable := (hall _ _ _ 0 _ hcall hu 1 w' hround (by simpa using hu')).table
    have hcount' : (w'.servers 0).playercount = (w.servers 0).playercount :=
      congrArg Table.playercount htable
    rw [beq_iff_eq.mp hone, hnone] at hcount'
    cases hcount'
  · cases hmatch

end Q2Admin
