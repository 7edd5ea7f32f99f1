import Q2Admin.Session.Frames
import Q2Admin.Session.Hello

/-!
# The contexts of trusted servers

Library `Q2Admin.Session`. A server becomes trusted when the contexts for both directions have been
made, and no pointer to one is ever cleared. `Run.armed`: the messages of a trusted server can be
deciphered in every state that the loop reaches.
-/

namespace Q2Admin

open Exec

variable {N : Nat} {c : Crypto} {q2 : Fin N} {w w' : World N}

/-- Every trusted server has the context that its messages are deciphered with. -/
def World.Armed (w : World N) : Prop :=
  ∀ s, (w.servers s).trusted = true → (w.servers s).connection.dCtx ≠ none

/-- What being armed rests on. -/
def Q2Server.arms (s : Q2Server) : Bool × Option Nat := (s.trusted, s.connection.dCtx)

private theorem World.Armed.of_arms (h : w.Armed)
    (hs : ∀ s, (w'.servers s).arms = (w.servers s).arms) :
    w'.Armed := by
  intro s
  have htrusted : (w'.servers s).trusted = (w.servers s).trusted := congrArg Prod.fst (hs s)
  have hctx : (w'.servers s).connection.dCtx = (w.servers s).connection.dCtx :=
    congrArg Prod.snd (hs s)
  rw [htrusted, hctx]
  exact h s

private theorem arms_updateServer {t : Fin N} {f : Q2Server → Q2Server}
    (s : Fin N) (hf : ∀ r, (f r).arms = r.arms) :
    ((w.updateServer t f).servers s).arms = (w.servers s).arms := by
  by_cases hs : s = t
  · rw [hs, World.updateServer_self]
    exact hf _
  · rw [World.updateServer_of_ne _ _ hs]

private theorem Change.arms {P : Fin N → Prop} (h : Change c q2 P False w w') (s : Fin N) :
    (w'.servers s).arms = (w.servers s).arms := by
  cases h with
  | write _ m _ => exact arms_updateServer s fun _ ↦ rfl
  | send _ =>
    exact keeps_send (v := fun w ↦ (w.servers s).arms) c (fun _ _ ↦ keeps_server_logEvent _ s)
      (fun _ _ _ ↦ keeps_server_logEvent _ s) (keeps_modifyServer _ s fun _ ↦ rfl) w
  | format => rfl
  | ping _ => exact arms_updateServer s fun _ ↦ rfl
  | tell _ => exact arms_updateServer s fun _ ↦ rfl
  | check hs => exact hs.elim
  | close hs => exact hs.elim

private theorem World.Armed.moves {x : M N Unit} (h : w.Armed)
    (hx : Moves (Change c q2 (fun _ ↦ True) False) x) (hrun : x.run w = .ok () w') : w'.Armed :=
  h.of_arms fun s ↦ (hx.keeps (v := fun w ↦ (w.servers s).arms) fun _ _ hc ↦ hc.arms s).ok hrun

private theorem World.Armed.rebuild (h : w.Armed)
    (hrun : removeServerSocket.run w = .ok () w') : w'.Armed :=
  h.of_arms fun s ↦ (keeps_removeServerSocket (v := Q2Server.arms) (fun _ _ ↦ rfl) s).ok hrun

private theorem World.Armed.close (h : w.Armed)
    (hrun : (closeConnection q2).run w = .ok () w') : w'.Armed := by
  rw [closeConnection_run] at hrun
  refine World.Armed.rebuild (w := w.closing q2) (h.of_arms fun s ↦ ?_) hrun
  by_cases hs : s = q2
  · rw [hs, World.closing_self]
    rfl
  · rw [World.closing_of_ne _ hs]

private theorem World.Armed.check {cipher : List UInt8} {b : Bool} (h : w.Armed)
    (hrun : (checkAnswer c q2 cipher).run w = .ok b w') : w'.Armed := by
  obtain ⟨_, k, _, rfl⟩ := checkAnswer_ok hrun
  cases b with
  | false => exact h
  | true =>
    intro s
    rw [if_pos rfl]
    by_cases hs : s = q2
    · rw [hs, World.granted_self]
      exact fun _ ↦ Option.some_ne_none _
    · rw [World.granted_of_ne _ hs]
      exact h s

private theorem armed_exec {cmd : Command} (h : w.Armed)
    (hrun : (exec c q2 cmd).run w = .ok () w') : w'.Armed := by
  have hmoves (hs : cmd.isSession = false) : w'.Armed := by
    refine h.moves (moves_exec c q2 trivial (fun _ _ ↦ trivial) fun hyes ↦ ?_) hrun
    rw [hs] at hyes
    cases hyes
  cases cmd with
  | auth cipher =>
    obtain ⟨b, w₁, hcheck, hrun⟩ := run_bind_ok hrun
    have hchecked := h.check hcheck
    cases b with
    | true => exact hchecked.moves (moves_acceptAuth c q2 trivial) hrun
    | false =>
      obtain ⟨_, w₂, hrefuse, haccept⟩ := run_bind_ok hrun
      obtain ⟨_, w₃, hwrite, hrefuse⟩ := run_bind_ok hrefuse
      obtain ⟨_, w₄, hsend, hclose⟩ := run_bind_ok hrefuse
      have hwritten : w₃.Armed := hchecked.moves (moves_onOut c q2 trivial
        (lengthens_bind (lengthens_byte _) fun _ ↦ lengthens_bind (lengthens_byte _) fun _ ↦
          lengthens_byte_string _ _)) hwrite
      have hsent : w₄.Armed := hwritten.moves (moves_sendBuffer c q2 trivial) hsend
      exact (hsent.close hclose).moves (moves_acceptAuth c q2 trivial) haccept
  | quit => exact h.close hrun
  | _ => exact hmoves rfl

private theorem armed_execAll {cmds : List Command} (h : w.Armed)
    (hrun : (forM cmds (exec c q2)).run w = .ok () w') : w'.Armed :=
  forM_ok (P := World.Armed) (fun _ _ _ _ ↦ armed_exec) h hrun

/-- A HELLO leaves trust and contexts alone. -/
theorem armed_registerHello {env : HelloEnv} {i : Nat} {hello : Hello} {found : Option (Fin N)}
    (h : w.Armed) (hrun : (registerHello c env i hello).run w = .ok found w') : w'.Armed := by
  cases hkey : w.serverOfKey hello.key with
  | none =>
    rw [registerHello_unknown hkey] at hrun
    cases hrun
    exact h
  | some q2 =>
    obtain ⟨_, _, plain, rfl, _⟩ := registerHello_ok hkey hrun
    refine h.of_arms fun s ↦ ?_
    by_cases hs : s = q2
    · rw [hs, World.posted_self, World.replying_self]
      dsimp only
      split
      · rfl
      · rfl
    · rw [World.posted_of_ne _ _ _ hs, World.replying_of_ne _ _ _ _ hs]

private theorem armed_turnAway {i : Nat} (h : w.Armed) (hrun : (turnAway i).run w = .ok () w') :
    w'.Armed :=
  h.of_arms fun s ↦ (keeps_server_turnAway (v := Q2Server.arms) (fun _ _ ↦ rfl) s i).ok hrun

private theorem armed_turn {env : Answer} {i : Nat} (h : w.Armed) (hturn : Turn c env i w w') :
    w'.Armed := by
  have hreceiving (m : MsgBuffer) : World.Armed { w.receiving env.recv i with msg := m } := h
  cases hturn with
  | idle same =>
    rw [same]
    exact h
  | accept fd _ _ _ run =>
    cases run
    exact h
  | hangUp q2 _ _ _ run =>
    exact World.Armed.of_arms (w := w.receiving env.recv i) h fun s ↦
      (keeps_server_hangUp (v := Q2Server.arms) (fun _ _ ↦ rfl) (fun _ ↦ rfl) s q2 i).ok run
  | message q2 cmds m _ _ _ run =>
    exact armed_execAll (w := { w.receiving env.recv i with
      msg := m, trace := w.deciphering q2 ++ (w.receiving env.recv i).trace }) h run
  | peer request m _ _ _ run =>
    exact (hreceiving m).of_arms fun s ↦
      (keeps_server_peer (v := Q2Server.arms) (fun _ _ ↦ rfl) c s i request).ok run
  | stranger m _ _ _ run => exact armed_turnAway (hreceiving m) run
  | refused q2 hello m w₁ _ _ _ _ register run =>
    exact armed_turnAway (armed_registerHello (hreceiving m) register) run
  | hello q2 hello m w₁ cmds m' _ _ _ _ _ register run =>
    have hgreeted : w₁.Armed := armed_registerHello (hreceiving m) register
    exact armed_execAll (w := { w₁ with
      msg := m', trace := w₁.deciphering q2 ++ w₁.trace }) hgreeted run

/-- In every state that the loop reaches the messages of trusted servers can be deciphered. -/
theorem Run.armed {G : Move → World N → Prop} {ms : List Move} {rows : Fin N → Row}
    {listener : Nat} {junk : Nat → PollFd}
    (hrun : Run (step c) G ms (initial rows listener junk) w) : w.Armed := by
  refine hrun.invariant (I := World.Armed) (fun m w w' _ hs h ↦ ?_) fun _ ↦ Bool.noConfusion
  cases m with
  | poll ready =>
    rw [step_poll hs]
    exact h
  | serve env =>
    obtain ⟨w₁, hturn, rfl⟩ := step_turn hs
    have harmed : w₁.Armed := armed_turn h hturn
    exact harmed

end Q2Admin
