import Q2Admin.Session.Greeting
import Q2Admin.Session.Invariants
import Q2Admin.Base.Run

/-!
# The event loop refines the session machine

Library `Q2Admin.Session`. `moveEffect` computes, before a step, what the step comes to.
`core_step`: a step of the loop that is taken acts on the sessions as its effect, and
`effect_valid`: in a state whose table and records agree the effect is one that the
session machine allows. So every reachable state has the invariants of the machine.
-/

namespace Q2Admin

open Exec

variable {N : Nat}

/-- What the first message on the socket in a slot comes to. -/
def World.firstEffect (c : Crypto) (w : World N) (env : Answer) (i : Nat) : Effect N :=
  match readFirst.run env.recv.buffer with
  | .error _ _ => .idle
  | .ok (.peer request) _ => .peer i (request = peerGetServers)
  | .ok .stranger _ => .reject i
  | .ok (.hello h) m =>
    match w.serverOfKey h.key with
    | none => .reject i
    | some q2 =>
      .hello q2 i h.port h.maxClients
        (if env.hello.answers h.challenge then
          some (((w.servers q2).greeted env.hello h).messageOps c m)
        else none)

/-- What serving a slot comes to. -/
def World.effect (c : Crypto) (w : World N) (env : Answer) (i : Nat) : Effect N :=
  if !(w.sockets i).revents then .idle
  else if (w.sockets i).fd = w.listener then
    match env.accept with
    | none => .idle
    | some fd => .accept fd
  else
    match w.getServer i with
    | some q2 =>
      if env.recv.buffer.length = 0 then .hangUp q2 i
      else .message q2 i ((w.servers q2).messageOps c env.recv.buffer)
    | none => w.firstEffect c env i

/-- What a step comes to. -/
def moveEffect (c : Crypto) : Move → World N → Effect N
  | .poll _, _ => .idle
  | .serve env, w => w.effect c env w.scan

private theorem core_acceptClient {accept : Option Nat} {w w' : World N}
    (h : (acceptClient accept).run w = .ok () w') :
    w'.core = (match accept with
      | none => Effect.idle
      | some fd => .accept fd).run w.core := by
  cases accept with
  | none =>
    cases h
    rfl
  | some fd =>
    cases h
    have hfds := fd_update w.sockets w.socketCount fd
    exact congrArg (fun f ↦ { w.core with
      fds := f
      count := w.core.count + 1
      trace := .accepted fd :: w.core.trace }) hfds

private theorem core_shut (w : World N) (i : Nat) : (w.shut i).core = w.core.shut i :=
  core_log w rfl

private theorem core_hangUp {q2 : Fin N} {i : Nat} {w w' : World N}
    (h : (hangUp (some q2) i).run w = .ok () w') : w'.core = w.core.hangUp q2 i := by
  rw [hangUp_run] at h
  obtain ⟨w₁, h₁, hcore⟩ :=
    core_removeServerSocket ((w.updateServer q2 Q2Server.drop).shut i)
  rw [h₁] at h
  cases h
  rw [hcore, core_shut, core_updateServer w q2 (g := fun r ↦
    { r with connected := false, index := 0, socket := 0 }) rfl]
  rfl

/-- Turning a connection away is a rejection in the machine. -/
theorem core_turnAway {i : Nat} {w w' : World N}
    (h : (turnAway i).run w = .ok () w') : w'.core = w.core.reject i := by
  rw [turnAway_run] at h
  obtain ⟨w₁, h₁, hcore⟩ := core_removeServerSocket (w.shut i)
  rw [h₁] at h
  cases h
  rw [hcore, core_shut]
  rfl

private theorem core_answerPeer {c : Crypto} {i : Nat} {request : UInt8} {w w' : World N}
    (h : (answerPeer c i request).run w = .ok () w') :
    w'.core = if request = peerGetServers then w.core.shut i else w.core := by
  rcases answerPeer_ok h with ⟨hr, rfl⟩ | ⟨hr, _, m, _, rfl⟩
  · rw [if_neg hr]
  · rw [if_pos hr, core_shut, core_unlogged w rfl]

private theorem core_actFirst {c : Crypto} {env : Answer} {i : Nat} {m : MsgBuffer} {first : First}
    {w w' : World N} (hr : readFirst.run env.recv.buffer = .ok first m) (hm : w.msg = m)
    (h : (actFirst c env.hello i first).run w = .ok () w') :
    w'.core = (w.firstEffect c env i).run w.core := by
  unfold World.firstEffect
  rw [hr]
  cases first with
  | peer request =>
    obtain ⟨_, w₁, h₁, h⟩ := run_bind_ok h
    obtain ⟨w₂, h₂, hc₂⟩ := core_removeServerSocket w₁
    rw [h₂] at h
    cases h
    rw [hc₂, core_answerPeer h₁]
    by_cases hq : request = peerGetServers
    · rw [if_pos hq]
      dsimp only
      rw [decide_eq_true hq]
      rfl
    · rw [if_neg hq]
      dsimp only
      rw [decide_eq_false hq]
      rfl
  | stranger => exact core_turnAway h
  | hello hello =>
    obtain ⟨found, w₁, h₁, h⟩ := run_bind_ok h
    obtain ⟨hmsg, hreg⟩ := seen_registerHello h₁
    dsimp only
    cases hf : w.serverOfKey hello.key with
    | none =>
      rw [hf] at hreg
      rcases hreg with ⟨rfl, hc₁⟩
      rw [core_turnAway h, hc₁]
      rfl
    | some q2 =>
      rw [hf] at hreg
      rcases hreg with ⟨rfl, hc₁, hrec⟩
      dsimp only
      cases ha : env.hello.answers hello.challenge with
      | true =>
        rw [ha] at h hrec
        rw [core_parseMessage h, messageOps_congr c (hrec rfl), hmsg, hm, hc₁]
        rfl
      | false =>
        rw [ha] at h
        rw [core_turnAway h, hc₁]
        rfl

/-- Receiving a message does not show in the machine. -/
theorem core_receiving (w : World N) (recv : Recv) (i : Nat) :
    (w.receiving recv i).core = w.core := core_unlogged { w with msg := recv.buffer } rfl

private theorem core_serveClient {c : Crypto} {env : Answer} {i : Nat} {w w' : World N}
    (h : Served c env.recv env.hello i w w') :
    w'.core = (match w.getServer i with
      | some q2 =>
        if env.recv.buffer.length = 0 then Effect.hangUp q2 i
        else .message q2 i ((w.servers q2).messageOps c env.recv.buffer)
      | none => w.firstEffect c env i).run w.core := by
  have hcore := core_receiving w env.recv i
  cases h with
  | hangUp q2 owner ended run =>
    rw [owner]
    dsimp only
    rw [if_pos ended, core_hangUp run, hcore]
    rfl
  | message q2 owner some run =>
    rw [owner]
    dsimp only
    rw [if_neg some, core_parseMessage run, hcore]
    rfl
  | first owner first m read run =>
    have he : World.firstEffect c { w.receiving env.recv i with msg := m } env i =
        w.firstEffect c env i := rfl
    rw [owner, core_actFirst read rfl run, he]
    exact congrArg (w.firstEffect c env i).run hcore

/-- A step of the loop acts on the sessions as its effect. -/
theorem core_step {c : Crypto} {m : Move} {w w' : World N} (h : step c m w = some w') :
    w'.core = (moveEffect c m w).run w.core := by
  cases m with
  | poll ready =>
    have hfds : (fun i ↦ (w.pollResult ready i).fd) = fun i ↦ (w.sockets i).fd := by
      funext i
      unfold World.pollResult
      split
      · rfl
      · rfl
    let w₀ : World N := { w with sockets := w.pollResult ready, scan := 0 }
    have hcore : w₀.core = w.core := congrArg (fun f ↦ { w.core with fds := f }) hfds
    rw [step_poll h]
    exact (core_unlogged w₀ rfl).trans hcore
  | serve env =>
    obtain ⟨_, w₁, hs, rfl⟩ := step_serve h
    change w₁.core = _
    unfold moveEffect World.effect
    dsimp only
    rcases serveSlot_ok hs with ⟨hr, rfl⟩ | ⟨hr, hl, hs⟩ | ⟨hr, hl, hs⟩
    · rw [if_pos (by simp [hr])]
      rfl
    · rw [if_neg (by simp [hr]), if_pos hl]
      exact core_acceptClient hs
    · rw [if_neg (by simp [hr]), if_neg hl]
      exact core_serveClient hs

/-- Only session events open and close sockets. -/
theorem isOpen_filter (fd : Nat) (t : List Event) :
    isOpen fd (t.filter Event.isSession) = isOpen fd t := by
  induction t with
  | nil => rfl
  | cons e t ih =>
    cases e with
    | accepted g => exact congrArg (fun b ↦ if g = fd then true else b) ih
    | closed g => exact congrArg (fun b ↦ if g = fd then false else b) ih
    | _ => exact ih

/-- The owner of a slot has its number as index. -/
theorem getServer_some {w : World N} {i : Nat} {q2 : Fin N} (h : w.getServer i = some q2) :
    (w.servers q2).index = i := by
  have hp := List.find?_some h
  exact of_decide_eq_true hp

/-- A slot without owner is claimed by no server. -/
theorem getServer_none {w : World N} {i : Nat} (h : w.getServer i = none) :
    w.core.Unclaimed i := by
  intro s hs
  have hp := List.find?_eq_none.mp h s (List.mem_finRange s)
  exact hp (decide_eq_true hs)

/-- The effect of a step that is taken is one that the session machine allows. -/
theorem effect_valid {c : Crypto} {m : Move} {w w' : World N} (h : step c m w = some w')
    (hw : w.core.Wf) : (moveEffect c m w).Valid w.core := by
  cases m with
  | poll ready => exact trivial
  | serve env =>
    obtain ⟨⟨hscan, hfresh⟩, _⟩ := step_serve h
    unfold moveEffect World.effect
    dsimp only
    split
    · exact trivial
    split
    · cases ha : env.accept with
      | none => exact trivial
      | some fd =>
        unfold Answer.fresh at hfresh
        rw [ha] at hfresh
        obtain ⟨hne, hclosed⟩ := Bool.and_eq_true_iff.mp hfresh
        refine ⟨of_decide_eq_true hne, ?_⟩
        change isOpen fd (w.trace.filter Event.isSession) = false
        rw [isOpen_filter]
        simpa using hclosed
    · next hl =>
      have hslot : w.core.InTable w.scan := by
        refine ⟨Nat.one_le_iff_ne_zero.mpr fun hz ↦ hl ?_, hscan⟩
        rw [hz]
        exact hw.listener
      cases ho : w.getServer w.scan with
      | some q2 =>
        dsimp only
        split
        · exact ⟨hslot, getServer_some ho⟩
        · exact ⟨hslot, getServer_some ho⟩
      | none =>
        have hfree := getServer_none ho
        unfold World.firstEffect
        dsimp only
        split
        · exact trivial
        · exact ⟨hslot, hfree⟩
        · exact ⟨hslot, hfree⟩
        · split
          · exact ⟨hslot, hfree⟩
          · exact ⟨hslot, hfree⟩

/-- What the session machine preserves under a condition on its effects, the event loop
preserves in runs whose steps meet it; table and records agree throughout. -/
theorem Run.core_invariant {c : Crypto} {G : Move → World N → Prop} {I : Core N → Prop}
    (hI : ∀ m w, G m w → w.core.Wf → (moveEffect c m w).Valid w.core → I w.core →
      I ((moveEffect c m w).run w.core))
    {ms : List Move} {w w' : World N} (hrun : Run (step c) G ms w w') (hw : w.core.Wf)
    (h : I w.core) : w'.core.Wf ∧ I w'.core := by
  refine hrun.invariant (I := fun w ↦ w.core.Wf ∧ I w.core) (fun m w w' hg hs hw ↦ ?_) ⟨hw, h⟩
  have hv := effect_valid hs hw.1
  rw [core_step hs]
  exact ⟨Core.wf_run hw.1 hv, hI m w hg hw.1 hv hw.2⟩

variable (rows : Fin N → Row) (listener : Nat) (junk : Nat → PollFd)

/-- The machine starts well formed. -/
theorem wf_initial : (initial rows listener junk).core.Wf where
  listener := congrArg PollFd.fd (Function.update_self 0 _ junk)
  count_pos := Nat.le_refl 1
  slot _ hs := by cases hs
  inj _ _ hs := by cases hs
  idle _ _ := rfl

/-- Table and records agree in every state that a run of the event loop reaches. -/
theorem Run.wf {c : Crypto} {G : Move → World N → Prop} {ms : List Move} {w : World N}
    (hrun : Run (step c) G ms (initial rows listener junk) w) : w.core.Wf :=
  (hrun.core_invariant (I := fun _ ↦ True) (fun _ _ _ _ _ _ ↦ trivial)
    (wf_initial rows listener junk) trivial).1

end Q2Admin
