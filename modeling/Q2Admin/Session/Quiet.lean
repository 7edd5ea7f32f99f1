import Q2Admin.Session.Frames

/-!
# Between commands nothing waits

Library `Q2Admin.Session`. Whatever a handler writes for a connected server it sends before it
returns, so between commands the output buffer of every connected server is empty. The leftover
of an earlier connection is sent with the reply to the next HELLO. A trusted server has the
context that its traffic is enciphered with.
-/

namespace Q2Admin

open Exec

variable {N : Nat} {α β : Type}

/-- Nothing waits in the buffer of the server while it is connected, and it has a context once it
is trusted. -/
structure Q2Server.Quiet (s : Q2Server) : Prop where
  empty : s.connected = true → s.msg = .zero
  context : s.trusted = true → s.connection.eCtx ≠ none

/-- Every server is quiet. -/
def World.Quiet (w : World N) : Prop := ∀ s, (w.servers s).Quiet

variable {c : Crypto} {q2 : Fin N} {w w₁ w' : World N}

namespace World.Quiet

/-- A change of one record that leaves it quiet. -/
theorem update (h : w.Quiet) {f : Q2Server → Q2Server}
    (hf : (w.servers q2).Quiet → (f (w.servers q2)).Quiet) : (w.updateServer q2 f).Quiet := by
  intro s
  by_cases hs : s = q2
  · rw [hs, World.updateServer_self]
    exact hf (h q2)
  · rw [World.updateServer_of_ne _ _ hs]
    exact h s

/-- A message that has been sent. -/
theorem posted (h : w.Quiet) (q2 : Fin N) (plain wire : List UInt8) :
    (w.posted q2 plain wire).Quiet := by
  have hupdate : (w.updateServer q2 (Q2Server.hold .zero)).Quiet :=
    h.update fun hq ↦ ⟨fun _ ↦ rfl, hq.context⟩
  exact hupdate

/-- A rebuild leaves the buffers quiet. -/
theorem rebuild (h : w.Quiet) (hrun : removeServerSocket.run w = .ok () w') : w'.Quiet := by
  obtain ⟨_, _, _, hrecords⟩ := removeServerSocket_frame hrun
  intro s
  rw [hrecords s]
  exact ⟨(h s).empty, (h s).context⟩

/-- Closing a connection leaves the buffers quiet. -/
theorem close (h : w.Quiet) (hrun : (closeConnection q2).run w = .ok () w') : w'.Quiet := by
  rw [closeConnection_run] at hrun
  have hclosing : (w.updateServer q2 Q2Server.disconnect).Quiet :=
    h.update fun hq ↦ ⟨Bool.noConfusion, hq.context⟩
  exact rebuild (w := w.closing q2) hclosing hrun

/-- Checking an answer leaves the buffers quiet. -/
theorem check {cipher : List UInt8} {b : Bool} (h : w.Quiet)
    (hrun : (checkAnswer c q2 cipher).run w = .ok b w') : w'.Quiet := by
  obtain ⟨_, k, _, rfl⟩ := checkAnswer_ok hrun
  cases b with
  | false => exact h
  | true =>
    have hgrant : (w.updateServer q2 (Q2Server.grant w.nextHandle)).Quiet :=
      h.update fun hq ↦ ⟨hq.empty, fun _ ↦ Option.some_ne_none _⟩
    exact hgrant

end World.Quiet

/-- What quiet rests on apart from the buffer. -/
def Q2Server.standing (s : Q2Server) : Bool × Bool × Option Nat :=
  (s.connected, s.trusted, s.connection.eCtx)

/-- Nothing has happened but that `k` bytes or more were written for the server. -/
structure Fed (q2 : Fin N) (k : Nat) (w w' : World N) : Prop where
  others : ∀ s, s ≠ q2 → w'.servers s = w.servers s
  standing : (w'.servers q2).standing = (w.servers q2).standing
  grown : (w.servers q2).msg.length + k ≤ (w'.servers q2).msg.length

/-- Nothing has been written so far. -/
theorem Fed.refl (q2 : Fin N) (w : World N) : Fed q2 0 w w :=
  ⟨fun _ _ ↦ rfl, rfl, Nat.le_refl _⟩

/-- What has been written in two parts adds up. -/
theorem Fed.trans {j k : Nat} (h : Fed q2 j w w₁) (h' : Fed q2 k w₁ w') : Fed q2 (j + k) w w' := by
  refine ⟨fun s hs ↦ (h'.others s hs).trans (h.others s hs), h'.standing.trans h.standing, ?_⟩
  have hle := h.grown
  have hle' := h'.grown
  omega

/-- The program writes `k` bytes or more for the server, and does nothing else to the records. -/
def Feeds (q2 : Fin N) (k : Nat) (x : M N α) : Prop :=
  ∀ (w w' : World N) (a : α), x.run w = .ok a w' → Fed q2 k w w'

private theorem feeds_of_keeps {x : M N α} (h : Keeps World.servers x) : Feeds q2 0 x := by
  intro w w' a hrun
  have hservers := h.ok hrun
  refine ⟨fun s _ ↦ congrFun hservers s, ?_, ?_⟩
  · rw [hservers]
  · rw [hservers]
    exact Nat.le_refl _

private theorem feeds_onOut {x : BufM Unit} {e : List UInt8} {k : Nat} (hx : Appends x e)
    (hk : k ≤ e.length) : Feeds q2 k (onOut q2 x) := by
  intro w w' _ hrun
  obtain ⟨m, hm, rfl⟩ := onOut_ok hx hrun
  refine ⟨fun s hs ↦ World.updateServer_of_ne _ _ hs, ?_, ?_⟩
  · rw [World.holding_self]
    rfl
  · rw [World.holding_self]
    change _ ≤ m.length
    rw [hm.length]
    omega

/-- An update away from buffer and standing writes nothing. -/
theorem feeds_modifyServer {f : Q2Server → Q2Server}
    (hf : ∀ s, (f s).standing = s.standing ∧ (f s).msg = s.msg) :
    Feeds q2 0 (modifyServer q2 f) := by
  intro w w' _ hrun
  obtain rfl := modifyServer_ok hrun
  refine ⟨fun s hs ↦ World.updateServer_of_ne _ _ hs, ?_, ?_⟩
  · rw [World.updateServer_self]
    exact (hf _).1
  · rw [World.updateServer_self, (hf _).2]
    exact Nat.le_refl _

private theorem feeds_va (format : List Piece) : Feeds q2 0 (va format : M N CharPtr) :=
  feeds_of_keeps (keeps_va (fun _ _ _ ↦ rfl) format)

private theorem feeds_clientText (clientId level : UInt8) (text : CharPtr) :
    Feeds q2 1 (clientText q2 clientId level text) := by
  intro w w' _ hrun
  obtain ⟨t, w₁, h₁, h⟩ := run_bind_ok hrun
  obtain ⟨rfl, rfl⟩ := look_ok h₁
  refine feeds_onOut (appends_bind (appends_byte scmdSayClient) (appends_bind
    (appends_byte clientId) (appends_bind (appends_byte level) (appends_string _)))) ?_ _ _ _ h
  exact Nat.succ_le_succ (Nat.zero_le _)

/-- When `k` bytes have been written for the server and the program has run behind that, every
server is quiet if it was before. -/
def Flushes (q2 : Fin N) (k : Nat) (x : M N Unit) : Prop :=
  ∀ w w₁ w' : World N, w.Quiet → Fed q2 k w w₁ → x.run w₁ = .ok () w' → w'.Quiet

private theorem flushes_bind {x : M N α} {f : α → M N Unit} {j k : Nat} (hx : Feeds q2 k x)
    (hf : ∀ a, Flushes q2 (j + k) (f a)) : Flushes q2 j (x >>= f) := by
  intro w w₁ w' h hfed hrun
  obtain ⟨a, w₂, h₁, hrun⟩ := run_bind_ok hrun
  exact hf a w w₂ w' h (hfed.trans (hx w₁ w₂ a h₁)) hrun

/-- `SendBuffer` flushes what has been written. -/
theorem flushes_sendBuffer (c : Crypto) {k : Nat} (hk : 0 < k) :
    Flushes q2 k (sendBuffer c q2) := by
  intro w w₁ w' h hfed hrun
  have hothers (s : Fin N) (hs : s ≠ q2) : (w₁.servers s).Quiet := by
    rw [hfed.others s hs]
    exact h s
  have hcontext : (w₁.servers q2).trusted = true → (w₁.servers q2).connection.eCtx ≠ none := by
    have htrusted : (w₁.servers q2).trusted = (w.servers q2).trusted :=
      congrArg (fun p ↦ p.2.1) hfed.standing
    have hctx : (w₁.servers q2).connection.eCtx = (w.servers q2).connection.eCtx :=
      congrArg (fun p ↦ p.2.2) hfed.standing
    rw [htrusted, hctx]
    exact (h q2).context
  have hgrown := hfed.grown
  intro s
  rcases sendBuffer_cases hrun with ⟨hidle | hlen, rfl⟩ | ⟨_, _, _, rfl⟩
  · by_cases hs : s = q2
    · subst hs
      refine ⟨fun hc ↦ ?_, hcontext⟩
      rw [hidle] at hc
      cases hc
    · exact hothers s hs
  · omega
  · by_cases hs : s = q2
    · subst hs
      rw [World.posted_self]
      exact ⟨fun _ ↦ rfl, hcontext⟩
    · rw [World.posted_of_ne _ _ _ hs]
      exact hothers s hs

/-- A handler that flushes what it writes. -/
theorem Flushes.quiet {x : M N Unit} (hx : Flushes q2 0 x) (h : w.Quiet)
    (hrun : x.run w = .ok () w') : w'.Quiet := hx w w w' h (.refl q2 w) hrun

private theorem flushes_pong (c : Crypto) (q2 : Fin N) : Flushes q2 0 (pong c q2) := by
  apply flushes_bind (feeds_onOut (appends_byte _) (Nat.le_refl 1))
  intro _
  refine flushes_bind (feeds_modifyServer ?_) fun _ ↦ flushes_sendBuffer c Nat.one_pos
  exact fun _ ↦ ⟨rfl, rfl⟩

private theorem flushes_acceptAuth (c : Crypto) (q2 : Fin N) : Flushes q2 0 (acceptAuth c q2) :=
  flushes_bind (feeds_onOut (appends_byte _) (Nat.le_refl 1)) fun _ ↦
    flushes_sendBuffer c Nat.one_pos

private theorem flushes_clientText (c : Crypto) (clientId level : UInt8) (text : CharPtr)
    (k : Nat) :
    Flushes q2 k (do clientText q2 clientId level text; sendBuffer c q2) :=
  flushes_bind (feeds_clientText clientId level text) fun _ ↦
    flushes_sendBuffer c (Nat.succ_pos k)

private theorem flushes_teleport (c : Crypto) (q2 : Fin N) (clientId : UInt8)
    (location : List UInt8) : Flushes q2 0 (teleport c q2 clientId location) := by
  unfold teleport
  by_cases hl : location = []
  · rw [if_pos hl]
    apply flushes_bind (feeds_of_keeps (keeps_buildTeleportServers fun _ _ _ ↦ rfl))
    intro _
    exact flushes_clientText c _ _ _ 0
  · rw [if_neg hl]
    apply flushes_bind (feeds_of_keeps fun _ ↦ rfl)
    intro found
    cases found with
    | some f =>
      apply flushes_bind (feeds_of_keeps fun _ ↦ rfl)
      intro _
      apply flushes_bind (feeds_va _)
      intro _
      apply flushes_bind (feeds_va _)
      intro _
      apply flushes_bind (feeds_clientText _ _ _)
      intro _
      apply flushes_bind (feeds_of_keeps fun _ ↦ rfl)
      intro _
      apply flushes_bind (feeds_onOut (appends_bind (appends_byte _) (appends_string _))
        (Nat.zero_le _))
      intro _
      exact flushes_sendBuffer c Nat.one_pos
    | none =>
      apply flushes_bind (feeds_va _)
      intro _
      exact flushes_clientText c _ _ _ 0

private theorem quiet_concludeAuth {verified : Bool} (h : w.Quiet)
    (hrun : (concludeAuth c q2 verified).run w = .ok () w') : w'.Quiet := by
  unfold concludeAuth at hrun
  cases verified with
  | true => exact (flushes_acceptAuth c q2).quiet h hrun
  | false =>
    obtain ⟨_, w₁, h₁, hrun⟩ := run_bind_ok hrun
    obtain ⟨_, w₂, h₂, h₁⟩ := run_bind_ok h₁
    obtain ⟨_, w₃, h₃, h₁⟩ := run_bind_ok h₁
    have hfed := feeds_onOut (appends_bind (appends_byte scmdError) (appends_bind
      (appends_byte 0xff) (appends_bind (appends_byte errUnauthorized) (appends_string _))))
      (Nat.succ_le_succ (Nat.zero_le _)) w w₂ () h₂
    have hsent := flushes_sendBuffer c Nat.one_pos w w₂ w₃ h hfed h₃
    exact (flushes_acceptAuth c q2).quiet (hsent.close h₁) hrun

private theorem quiet_sayAll {message : List UInt8} (h : w.Quiet)
    (hrun : (sayAll c message q2).run w = .ok () w') : w'.Quiet := by
  have hsay := sayAll_ok hrun
  split at hsay
  · obtain ⟨plain, rfl, _⟩ := hsay
    exact h.posted q2 plain _
  · rw [hsay]
    exact h

private theorem quiet_invite {clientId : UInt8} {text : List UInt8} (h : w.Quiet)
    (hrun : (invite c q2 clientId text).run w = .ok () w') : w'.Quiet := by
  obtain ⟨s, w₁, h₁, hrun⟩ := run_bind_ok hrun
  obtain ⟨p, w₂, h₂, hrun⟩ := run_bind_ok hrun
  obtain ⟨t, w₃, h₃, hrun⟩ := run_bind_ok hrun
  obtain ⟨rfl, rfl⟩ := look_ok h₁
  obtain ⟨rfl, rfl⟩ := look_ok h₃
  have hservers : w₂.servers = w.servers := (keeps_va (fun _ _ _ ↦ rfl) _).ok h₂
  have hquiet : w₂.Quiet := fun s ↦ by
    rw [hservers]
    exact h s
  exact forM_ok (P := World.Quiet) (fun _ _ _ _ ↦ quiet_sayAll) hquiet hrun

/-- Whatever the command, every server is quiet behind it. -/
theorem quiet_exec {cmd : Command} (h : w.Quiet) (hrun : (exec c q2 cmd).run w = .ok () w') :
    w'.Quiet := by
  cases cmd with
  | auth cipher =>
    obtain ⟨b, w₁, h₁, hrun⟩ := run_bind_ok hrun
    exact quiet_concludeAuth (h.check h₁) hrun
  | quit => exact h.close hrun
  | ping => exact (flushes_pong c q2).quiet h hrun
  | teleport clientId location => exact (flushes_teleport c q2 clientId location).quiet h hrun
  | invite clientId text => exact quiet_invite h hrun
  | _ =>
    rw [exec_tells rfl hrun]
    exact h.update fun hq ↦ ⟨hq.empty, hq.context⟩

/-- Commands leave the buffers quiet. -/
theorem quiet_execAll {cmds : List Command} (h : w.Quiet)
    (hrun : (forM cmds (exec c q2)).run w = .ok () w') : w'.Quiet :=
  forM_ok (P := World.Quiet) (fun _ _ _ _ ↦ quiet_exec) h hrun

/-- The reply to a HELLO takes along what was left of the connection before. -/
theorem quiet_registerHello {env : HelloEnv} {i : Nat} {hello : Hello} {found : Option (Fin N)}
    (h : w.Quiet) (hrun : (registerHello c env i hello).run w = .ok found w') : w'.Quiet := by
  cases hkey : w.serverOfKey hello.key with
  | none =>
    rw [registerHello_unknown hkey] at hrun
    cases hrun
    exact h
  | some q2 =>
    obtain ⟨_, _, plain, rfl, _⟩ := registerHello_ok hkey hrun
    intro s
    by_cases hs : s = q2
    · rw [hs, World.posted_self, World.replying_self]
      refine ⟨fun _ ↦ rfl, ?_⟩
      dsimp only
      split
      · exact (h q2).context
      · exact (h q2).context
    · rw [World.posted_of_ne _ _ _ hs, World.replying_of_ne _ _ _ _ hs]
      exact h s

private theorem quiet_turnAway {i : Nat} (h : w.Quiet) (hrun : (turnAway i).run w = .ok () w') :
    w'.Quiet := by
  rw [turnAway_run] at hrun
  exact World.Quiet.rebuild (w := w.shut i) h hrun

private theorem quiet_hangUp {i : Nat} (h : w.Quiet)
    (hrun : (hangUp (some q2) i).run w = .ok () w') : w'.Quiet := by
  rw [hangUp_run] at hrun
  have hdown : (w.updateServer q2 Q2Server.drop).Quiet :=
    h.update fun hq ↦ ⟨Bool.noConfusion, hq.context⟩
  exact World.Quiet.rebuild (w := (w.updateServer q2 Q2Server.drop).shut i) hdown hrun

private theorem quiet_peer {i : Nat} {request : UInt8} (h : w.Quiet)
    (hrun : (do answerPeer c i request; removeServerSocket).run w = .ok () w') : w'.Quiet := by
  obtain ⟨_, w₁, h₁, hrun⟩ := run_bind_ok hrun
  have hservers : w₁.servers = w.servers :=
    (keeps_answerPeer c i request fun _ _ ↦ fun _ ↦ rfl).ok h₁
  refine World.Quiet.rebuild (w := w₁) (fun s ↦ ?_) hrun
  rw [hservers]
  exact h s

/-- Every server is quiet behind a turn. -/
theorem quiet_turn {env : Answer} {i : Nat} (h : w.Quiet) (hturn : Turn c env i w w') :
    w'.Quiet := by
  have hreceiving : (w.receiving env.recv i).Quiet := h
  cases hturn with
  | idle same =>
    rw [same]
    exact h
  | accept fd _ _ _ run =>
    cases run
    exact h
  | hangUp q2 _ _ _ run => exact quiet_hangUp hreceiving run
  | message q2 cmds m _ _ _ run =>
    exact quiet_execAll (w := { w.receiving env.recv i with
      msg := m, trace := w.deciphering q2 ++ (w.receiving env.recv i).trace }) h run
  | peer request m _ _ _ run =>
    exact quiet_peer (w := { w.receiving env.recv i with msg := m }) h run
  | stranger m _ _ _ run =>
    exact quiet_turnAway (w := { w.receiving env.recv i with msg := m }) h run
  | refused q2 hello m w₁ _ _ _ _ register run =>
    have hrefused : w₁.Quiet :=
      quiet_registerHello (w := { w.receiving env.recv i with msg := m }) h register
    exact quiet_turnAway hrefused run
  | hello q2 hello m w₁ cmds m' _ _ _ _ _ register run =>
    have hgreeted : w₁.Quiet :=
      quiet_registerHello (w := { w.receiving env.recv i with msg := m }) h register
    exact quiet_execAll (w := { w₁ with
      msg := m', trace := w₁.deciphering q2 ++ w₁.trace }) hgreeted run

/-- In every state that the loop reaches every server is quiet. -/
theorem Run.quiet {G : Move → World N → Prop} {ms : List Move} {rows : Fin N → Row}
    {listener : Nat} {junk : Nat → PollFd}
    (hrun : Run (step c) G ms (initial rows listener junk) w) : w.Quiet := by
  refine hrun.invariant (I := World.Quiet) (fun m w w' _ hs h ↦ ?_) ?_
  · cases m with
    | poll ready =>
      rw [step_poll hs]
      exact h
    | serve env =>
      obtain ⟨w₁, hturn, rfl⟩ := step_turn hs
      have hquiet : w₁.Quiet := quiet_turn h hturn
      exact hquiet
  · exact fun s ↦ ⟨fun _ ↦ rfl, Bool.noConfusion⟩

end Q2Admin
