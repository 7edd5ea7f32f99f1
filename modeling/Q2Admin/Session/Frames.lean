import Q2Admin.Session.Turn
import Q2Admin.Session.Footprint

/-!
# What a turn leaves alone

Library `Q2Admin.Session`. Frames for the handlers of HELLO, AUTH and peers. An observation
that is indifferent to sessions, such as the slots of the poll table or what a record says
about its game, is kept by all of them. `removeServerSocket_slots` says what a rebuild of the
table does to its slots.
-/

namespace Q2Admin

open Exec

variable {N : Nat} {α ν : Type}

/-- A cleared connection. -/
def Connection.zero : Connection where
  aeskey := .zero 16
  aeskeyCipher := .zero 256
  iv := .zero 16
  eCtx := none
  dCtx := none
  encrypted := false
  clChallenge := .zero 16
  pingCount := 0

/-- A record apart from what belongs to a connection. -/
def Q2Server.game (s : Q2Server) : Q2Server :=
  { s with
    index := 0
    connected := false
    socket := 0
    connection := .zero
    port := 0
    maxclients := 0
    msg := .zero
    trusted := false
    publickey := none }

/-- The events that the loop notes before it calls a handler. -/
def Event.isLoop : Event → Bool
  | .polled _ | .accepted _ | .received _ => true
  | _ => false

/-- The answer to a peer keeps what does not show its events. -/
theorem keeps_answerPeer {v : World N → ν} (c : Crypto) (i : Nat) (request : UInt8)
    (hlog : ∀ e : Event, e.isLoop = false → Keeps v (logEvent e)) :
    Keeps v (answerPeer c i request) := by
  refine keeps_ite (keeps_bind (fun _ ↦ rfl) fun w ↦ ?_) (keeps_pure _)
  dsimp only
  split
  · exact keeps_throw _
  · exact keeps_bind (hlog _ rfl) fun _ ↦ hlog _ rfl

section Records

variable {v : Q2Server → ν}

/-- Turning a connection away keeps of a record what does not depend on its index. -/
theorem keeps_server_turnAway (hindex : ∀ r i, v { r with index := i } = v r) (s : Fin N)
    (i : Nat) : Keeps (fun w ↦ v (w.servers s)) (turnAway i) :=
  keeps_bind (fun _ ↦ rfl) fun _ ↦
    keeps_bind (fun _ ↦ rfl) fun _ ↦ keeps_removeServerSocket hindex s

/-- The end of a connection keeps of a record what depends neither on its index nor on whether it
is connected. -/
theorem keeps_server_hangUp (hindex : ∀ r i, v { r with index := i } = v r)
    (hplace : ∀ r, v { r with connected := false, index := 0, socket := 0 } = v r)
    (s q2 : Fin N) (i : Nat) : Keeps (fun w ↦ v (w.servers s)) (hangUp (some q2) i) := by
  apply keeps_bind (keeps_modifyServer q2 s hplace)
  intro _
  apply keeps_bind fun _ ↦ rfl
  intro _
  exact keeps_bind (fun _ ↦ rfl) fun _ ↦ keeps_removeServerSocket hindex s

/-- A peer's request keeps of a record what does not depend on its index. -/
theorem keeps_server_peer (hindex : ∀ r i, v { r with index := i } = v r) (c : Crypto)
    (s : Fin N) (i : Nat) (request : UInt8) :
    Keeps (fun w ↦ v (w.servers s)) (do answerPeer c i request; removeServerSocket) :=
  keeps_bind (keeps_answerPeer c i request fun _ _ ↦ fun _ ↦ rfl) fun _ ↦
    keeps_removeServerSocket hindex s

end Records

/-- The observation shows neither what belongs to a connection nor what handlers note. -/
structure Indifferent (v : World N → ν) : Prop where
  assign : ∀ (w : World N) (q2 : Fin N) (f : Q2Server → Q2Server),
    (∀ s, (f s).game = s.game) → v (w.updateServer q2 f) = v w
  log : ∀ (w : World N) (e : Event), e.isLoop = false → v { w with trace := e :: w.trace } = v w
  allocate : ∀ (w : World N) (n : Nat), v { w with nextHandle := n } = v w
  receive : ∀ (w : World N) (m : MsgBuffer), v { w with msg := m } = v w
  format : ∀ (w : World N) (strings : Fin 8 → List UInt8) (index : UInt16),
    v { w with vaStrings := strings, vaIndex := index } = v w

namespace Indifferent

variable {v : World N → ν} (hv : Indifferent v)
include hv

/-- An update that says the same about the game. -/
theorem modifyServer (q2 : Fin N) {f : Q2Server → Q2Server} (hf : ∀ s, (f s).game = s.game) :
    Keeps v (Q2Admin.modifyServer q2 f) := keeps_modify fun w ↦ hv.assign w q2 f hf

/-- An event that is not one of the loop. -/
theorem logEvent {e : Event} (he : e.isLoop = false) : Keeps v (Q2Admin.logEvent e) :=
  keeps_modify fun w ↦ hv.log w e he

/-- A handle that is created. -/
theorem createHandle (q2 : Fin N) (cell : Cell) : Keeps v (Q2Admin.createHandle q2 cell) := by
  intro w
  change v { w with
    nextHandle := w.nextHandle + 1, trace := .created q2 cell w.nextHandle :: w.trace } = v w
  exact (hv.log { w with nextHandle := w.nextHandle + 1 } _ rfl).trans (hv.allocate w _)

/-- A writer on an output buffer. -/
theorem onOut (q2 : Fin N) (x : BufM α) : Keeps v (Q2Admin.onOut q2 x) :=
  keeps_zoom fun m w ↦ hv.assign w q2 (fun s ↦ { s with msg := m }) fun _ ↦ rfl

private theorem release (q2 : Fin N) (cell : Cell) (h : Option Nat) :
    Keeps v (Q2Admin.release q2 cell h) := by
  cases h with
  | none => exact keeps_pure _
  | some h => exact hv.logEvent rfl

/-- A message that is sent. -/
theorem sendBuffer (c : Crypto) (q2 : Fin N) : Keeps v (Q2Admin.sendBuffer c q2) :=
  keeps_send c (fun _ _ ↦ hv.logEvent rfl) (fun _ _ _ ↦ hv.logEvent rfl)
    (hv.modifyServer q2 fun _ ↦ rfl)

/-- An answer to a challenge that is checked. -/
theorem checkAnswer (c : Crypto) (q2 : Fin N) (cipher : List UInt8) :
    Keeps v (Q2Admin.checkAnswer c q2 cipher) := by
  refine keeps_check c cipher (fun _ _ ↦ hv.logEvent rfl) (fun _ ↦ hv.logEvent rfl)
    (hv.createHandle q2)
    fun f hf ↦ hv.modifyServer q2 fun s ↦ ?_
  exact (congrArg Q2Server.game (hf s) :)

private theorem loadClientPublicKey (env : HelloEnv) (q2 : Fin N) :
    Keeps v (Q2Admin.loadClientPublicKey env q2) := by
  unfold Q2Admin.loadClientPublicKey
  split
  · exact keeps_throw _
  · exact hv.modifyServer q2 fun _ ↦ rfl
  · exact keeps_bind (hv.createHandle q2 _) fun _ ↦ hv.modifyServer q2 fun _ ↦ rfl
  · exact keeps_bind (hv.createHandle q2 _) fun _ ↦ hv.modifyServer q2 fun _ ↦ rfl

private theorem sendSessionKey (env : HelloEnv) (q2 : Fin N) :
    Keeps v (Q2Admin.sendSessionKey env q2) := by
  apply keeps_bind fun _ ↦ rfl
  intro s
  apply keeps_ite (keeps_pure _)
  refine keeps_bind (hv.modifyServer q2 fun _ ↦ rfl) fun _ ↦ ?_
  cases s.publickey with
  | none => exact keeps_throw _
  | some k =>
    apply keeps_bind (hv.logEvent rfl)
    intro _
    exact keeps_bind (hv.modifyServer q2 fun _ ↦ rfl) fun _ ↦ hv.onOut q2 _

private theorem serverAuthResponse (c : Crypto) (env : HelloEnv) (q2 : Fin N)
    (challenge : Field 16) : Keeps v (Q2Admin.serverAuthResponse c env q2 challenge) := by
  unfold Q2Admin.serverAuthResponse
  refine keeps_bind (hv.modifyServer q2 fun _ ↦ rfl) fun _ ↦ ?_
  generalize signClientChallenge env challenge = signature
  apply keeps_ite (keeps_throw _)
  apply keeps_ite
  · apply keeps_bind fun _ ↦ rfl
    intro s
    exact keeps_bind (hv.release q2 _ _) fun _ ↦ keeps_pure _
  · apply keeps_bind (hv.onOut q2 _)
    intro _
    apply keeps_bind (hv.sendSessionKey env q2)
    intro _
    apply keeps_bind (hv.onOut q2 _)
    intro _
    exact keeps_bind (hv.sendBuffer c q2) fun _ ↦ keeps_pure _

/-- A HELLO does not show. -/
theorem registerHello (c : Crypto) (env : HelloEnv) (i : Nat) (h : Hello) :
    Keeps v (Q2Admin.registerHello c env i h : M N _) := by
  apply keeps_bind fun _ ↦ rfl
  intro found
  cases found with
  | none => exact keeps_pure _
  | some q2 =>
    refine keeps_bind ?_ fun _ ↦ keeps_bind (hv.serverAuthResponse c env q2 _) fun answered ↦ ?_
    · apply keeps_bind fun _ ↦ rfl
      intro p
      refine keeps_bind (hv.modifyServer q2 fun _ ↦ rfl) fun _ ↦ ?_
      exact keeps_bind (hv.logEvent rfl) fun _ ↦ hv.loadClientPublicKey env q2
    · apply keeps_ite (keeps_pure _)
      refine keeps_bind (keeps_bind (hv.onOut q2 _) fun _ ↦ hv.sendBuffer c q2) fun _ ↦ ?_
      exact keeps_pure _

/-- A message that is deciphered. -/
theorem deciphering (w₁ : World N) (q2 : Fin N) (w : World N) :
    v { w with trace := w₁.deciphering q2 ++ w.trace } = v w := by
  rcases w₁.uses_deciphering q2 with he | ⟨_, _, _, he⟩
  · rw [he]
    rfl
  · rw [he]
    exact hv.log w _ rfl

variable (hr : Keeps v removeServerSocket)
include hr

/-- A connection that is turned away. -/
theorem turnAway (i : Nat) : Keeps v (Q2Admin.turnAway i : M N Unit) :=
  keeps_bind (fun _ ↦ rfl) fun _ ↦ keeps_bind (hv.logEvent rfl) fun _ ↦ hr

/-- A connection that ends. -/
theorem hangUp (owner : Option (Fin N)) (i : Nat) : Keeps v (Q2Admin.hangUp owner i) := by
  cases owner with
  | none => exact keeps_throw _
  | some q2 =>
    refine keeps_bind (hv.modifyServer q2 fun _ ↦ rfl) fun _ ↦ ?_
    exact keeps_bind (fun _ ↦ rfl) fun _ ↦ keeps_bind (hv.logEvent rfl) fun _ ↦ hr

/-- A peer's request. -/
theorem peer (c : Crypto) (i : Nat) (request : UInt8) :
    Keeps v (do answerPeer c i request; removeServerSocket) :=
  keeps_bind (keeps_answerPeer c i request fun _ he ↦ hv.logEvent he) fun _ ↦ hr

/-- A connection that is closed. -/
theorem closeConnection (q2 : Fin N) : Keeps v (Q2Admin.closeConnection q2) :=
  keeps_close (fun _ _ ↦ hv.logEvent rfl) (fun _ ↦ hv.logEvent rfl)
    (hv.modifyServer q2 fun _ ↦ rfl) hr

/-- Commands show at most in what they tell about the game. -/
theorem execAll (c : Crypto) (q2 : Fin N) (cmds : List Command)
    (htell : ∀ (w : World N) (t : Table), v (w.updateServer q2 fun r ↦
      { r with players := t.players, playercount := t.playercount, map := t.map }) = v w) :
    Keeps v (forM cmds (exec c q2)) := by
  apply (moves_execAll c q2 (P := fun _ ↦ True) (fun _ ↦ trivial) trivial cmds).keeps
  intro w w' hchange
  cases hchange with
  | write _ m _ => exact hv.assign w _ _ fun _ ↦ rfl
  | @send s _ => exact hv.sendBuffer c s w
  | format strings index => exact hv.format w strings index
  | ping count => exact hv.assign w _ _ fun _ ↦ rfl
  | tell t => exact htell w t
  | check _ cipher => exact hv.checkAnswer c q2 cipher w
  | close => exact hv.closeConnection hr q2 w

/-- A turn shows only in the commands that are heard in it, unless an accepted socket or what
has been received shows. -/
theorem turn {c : Crypto} {env : Answer} {i : Nat} {w w' : World N} (h : Turn c env i w w')
    (haccept : ∀ fd, Keeps v (acceptClient (some fd)))
    (hreceive : ∀ fd, v { w with trace := .received fd :: w.trace } = v w) :
    v w' = v w ∨ ∃ q2 cmds w₁, w.heard c env i = some (q2, cmds) ∧ v w₁ = v w ∧
      (forM cmds (exec c q2)).run w₁ = .ok () w' := by
  have hreceiving : v (w.receiving env.recv i) = v w :=
    (hv.receive { w with trace := .received (w.sockets i).fd :: w.trace } env.recv.buffer).trans
      (hreceive _)
  have hreceived (m : MsgBuffer) : v { w.receiving env.recv i with msg := m } = v w :=
    (hv.receive _ m).trans hreceiving
  cases h with
  | idle same => exact .inl (congrArg v same)
  | accept fd _ _ _ run => exact .inl ((haccept fd).ok run)
  | hangUp q2 _ _ _ run => exact .inl (((hv.hangUp hr _ i).ok run).trans hreceiving)
  | message q2 cmds m _ _ heard run =>
    refine .inr ⟨q2, cmds, _, heard, ?_, run⟩
    exact (hv.deciphering _ _ { w.receiving env.recv i with msg := m }).trans (hreceived m)
  | peer request m _ _ _ run =>
    exact .inl (((hv.peer hr c i request).ok run).trans (hreceived m))
  | stranger m _ _ _ run => exact .inl (((hv.turnAway hr i).ok run).trans (hreceived m))
  | refused q2 h m w₁ _ _ _ _ register run =>
    left
    rw [(hv.turnAway hr i).ok run, (hv.registerHello c env.hello i h).ok register, hreceived]
  | hello q2 h m w₁ cmds m' _ _ _ _ heard register run =>
    refine .inr ⟨q2, cmds, _, heard, ?_, run⟩
    rw [hv.deciphering _ _ { w₁ with msg := m' }, hv.receive,
      (hv.registerHello c env.hello i h).ok register, hreceived]

end Indifferent

/-- What the records say about their games. -/
def World.games (w : World N) (s : Fin N) : Q2Server := (w.servers s).game

/-- What the servers have told about their games shows no loop. -/
theorem indifferent_games : Indifferent (World.games : World N → _) where
  assign w q2 f hf := by
    funext s
    unfold World.games
    by_cases hs : s = q2
    · rw [hs, World.updateServer_self, hf]
    · rw [World.updateServer_of_ne _ _ hs]
  log _ _ _ := rfl
  allocate _ _ := rfl
  receive _ _ := rfl
  format _ _ _ := rfl

/-- A rebuild leaves what the servers have told about their games. -/
theorem keeps_games_rebuild : Keeps (World.games : World N → _) removeServerSocket :=
  keeps_rebuild (fun w q2 _ ↦ indifferent_games.assign w q2 _ fun _ ↦ rfl) (fun _ _ _ ↦ rfl)
    fun _ _ ↦ rfl

/-- The poll table and the scan over it. -/
def World.slots (w : World N) : Nat × (Nat → PollFd) × Nat × Nat :=
  (w.listener, w.sockets, w.socketCount, w.scan)

/-- The slots are indifferent to what is done away from them. -/
theorem indifferent_slots : Indifferent (World.slots : World N → _) where
  assign _ _ _ _ := rfl
  log _ _ _ := rfl
  allocate _ _ := rfl
  receive _ _ := rfl
  format _ _ _ := rfl

-- What entering servers into the table from a slot on does to the slots, up to the next free one.
private structure Entered (i j : Nat) (w w' : World N) : Prop where
  le : i ≤ j
  revents : ∀ n, (w'.sockets n).revents = (w.sockets n).revents
  outside : ∀ n, n < i ∨ j ≤ n → w'.sockets n = w.sockets n

private theorem entered_listServer {i j : Nat} {q2 : Fin N} {w w' : World N}
    (h : (listServer i q2).run w = .ok j w') : Entered i j w w' := by
  obtain ⟨s, w₁, h₁, h⟩ := run_bind_ok h
  obtain ⟨rfl, rfl⟩ := look_ok h₁
  by_cases hc : (w.servers q2).connected = true
  · rw [if_neg (by simp [hc])] at h
    cases h
    refine ⟨Nat.le_succ i, fun n ↦ ?_, fun n hn ↦ Function.update_of_ne (by omega) _ w.sockets⟩
    by_cases hn : n = i
    · subst hn
      exact (congrArg PollFd.revents (Function.update_self n _ w.sockets) :)
    · exact (congrArg PollFd.revents (Function.update_of_ne hn _ w.sockets) :)
  · rw [if_pos (by simp [hc])] at h
    cases h
    exact ⟨Nat.le_refl i, fun _ ↦ rfl, fun _ _ ↦ rfl⟩

private theorem Entered.trans {i j k : Nat} {w w₁ w' : World N} (h : Entered i j w w₁)
    (h' : Entered j k w₁ w') : Entered i k w w' := by
  have hle := h.le
  have hle' := h'.le
  refine ⟨h.le.trans h'.le, fun n ↦ (h'.revents n).trans (h.revents n), fun n hn ↦ ?_⟩
  rw [h'.outside n (by omega), h.outside n (by omega)]

private theorem entered_foldlM {l : List (Fin N)} {i j : Nat} {w w' : World N}
    (h : (l.foldlM listServer i).run w = .ok j w') : Entered i j w w' :=
  foldlM_ok (P := fun j w₁ ↦ Entered i j w w₁)
    (fun _ _ _ _ _ _ hentered hround ↦ hentered.trans (entered_listServer hround))
    ⟨Nat.le_refl _, fun _ ↦ rfl, fun _ _ ↦ rfl⟩ h

/-- A rebuild of the table keeps the `revents` of all slots, and it writes no slot behind the
table that it leaves. -/
theorem removeServerSocket_slots {w w' : World N} (h : removeServerSocket.run w = .ok () w') :
    (∀ n, (w'.sockets n).revents = (w.sockets n).revents) ∧
      ∀ n, w'.socketCount ≤ n → w'.sockets n = w.sockets n := by
  obtain ⟨j, w₁, h₁, h⟩ := run_bind_ok h
  have hentered := entered_foldlM h₁
  cases h
  exact ⟨hentered.revents, fun n hn ↦ hentered.outside n (.inr hn)⟩

end Q2Admin
