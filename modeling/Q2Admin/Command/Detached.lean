import Q2Admin.Model.Parse

/-!
# Programs that look at neither the message nor the past

Library `Q2Admin.Command`. What a handler does with its fields depends on the server
records, the poll table and the buffers of `va`, but neither on the message it was read
from nor on the events before it. `Detached` states this as a relation between two runs.
`Talks` is said of the detached programs that only talk to servers: they leave the state
as it was apart from output buffers and the buffers of `va`. One lemma for each function
of the source that acts.
-/

namespace Q2Admin

open Exec

variable {N : Nat} {α β : Type}

/-- The same state with another message and with `t'` in place of the old events `t`. -/
def Shifted (m : MsgBuffer) (t t' : List Event) (w w' : World N) : Prop :=
  ∃ e, w.trace = e ++ t ∧ w' = { w with msg := m, trace := e ++ t' }

/-- The program looks at neither the message nor the events before it. -/
def Detached (x : M N α) : Prop := ∀ m t t', Mirrors (Shifted m t t') x

/-- A detached program is blind for the message. -/
theorem Detached.blind {x : M N α} (h : Detached x) : Blind inMsg x := by
  intro m w w' hw
  have hs : Shifted m w.trace w.trace w w' := ⟨[], rfl, hw⟩
  have hr := h m w.trace w.trace w w' hs
  cases hx : x.run w with
  | ok a v =>
    cases hx' : x.run w' with
    | ok b v' =>
      rw [hx, hx'] at hr
      rcases hr with ⟨hab, e, he, hv⟩
      refine ⟨hab, ?_⟩
      rw [hv, ← he]
      rfl
    | error f v' =>
      rw [hx, hx'] at hr
      exact hr.elim
  | error f v =>
    cases hx' : x.run w' with
    | ok b v' =>
      rw [hx, hx'] at hr
      exact hr.elim
    | error f' v' =>
      rw [hx, hx'] at hr
      rcases hr with ⟨hab, e, he, hv⟩
      refine ⟨hab, ?_⟩
      rw [hv, ← he]
      rfl

/-- A detached program puts its events in front of those before it. -/
theorem Detached.appends {x : M N α} (h : Detached x) (w : World N) :
    ∃ e, (final x w).trace = e ++ w.trace := by
  obtain ⟨e, he, _⟩ := (h w.msg w.trace w.trace).final (s := w) (t := w) ⟨[], rfl, rfl⟩
  exact ⟨e, he⟩

section Rules

/-- A result is detached. -/
theorem detached_pure (a : α) : Detached (pure a : M N α) := fun _ _ _ ↦ mirrors_pure a

private theorem detached_throw (e : Fault) : Detached (throw e : M N α) :=
  fun _ _ _ ↦ mirrors_throw e

/-- In sequence both parts are detached. -/
theorem detached_bind {x : M N α} {f : α → M N β} (hx : Detached x)
    (hf : ∀ a, Detached (f a)) : Detached (x >>= f) :=
  fun m t t' ↦ mirrors_bind (hx m t t') fun a ↦ hf a m t t'

private theorem detached_ite {p : Prop} [Decidable p] {x y : M N α} (hx : Detached x)
    (hy : Detached y) : Detached (if p then x else y) :=
  fun m t t' ↦ mirrors_ite (hx m t t') (hy m t t')

/-- A loop is detached if its rounds are. -/
theorem detached_forM {l : List α} {f : α → M N PUnit} (hf : ∀ a, Detached (f a)) :
    Detached (forM l f) := fun m t t' ↦ mirrors_forM fun a _ ↦ hf a m t t'

private theorem detached_foldlM {l : List α} {f : β → α → M N β} (hf : ∀ b a, Detached (f b a))
    (b : β) :
    Detached (l.foldlM f b) := fun m t t' ↦ mirrors_foldlM (fun b a _ ↦ hf b a m t t') b

/-- Reading a part of the state that is neither the message nor the trace. -/
theorem detached_look {v : World N → α}
    (h : ∀ (w : World N) m t, v { w with msg := m, trace := t } = v w) : Detached (look v) := by
  intro m t t'
  apply mirrors_get_pure
  intro w w' hw
  rcases hw with ⟨e, _, rfl⟩
  exact (h w m (e ++ t')).symm

/-- Updating the state apart from the message and the trace. -/
theorem detached_modify {f : World N → World N} (hf : ∀ w, (f w).trace = w.trace)
    (h : ∀ (w : World N) m t,
      f { w with msg := m, trace := t } = { f w with msg := m, trace := t }) :
    Detached (modify f) := by
  intro m t t'
  apply mirrors_modify
  intro w w' hw
  rcases hw with ⟨e, he, rfl⟩
  exact ⟨e, by rw [hf, he], h w m (e ++ t')⟩

end Rules

/-- A record apart from its output buffer and its count of pings. -/
def Q2Server.stable (s : Q2Server) : Q2Server :=
  { s with msg := .zero, connection := { s.connection with pingCount := 0 } }

/-- The state apart from what talking to servers changes. -/
def World.stable (w : World N) : World N :=
  { w with
    servers := fun q2 ↦ (w.servers q2).stable
    vaStrings := fun _ ↦ []
    vaIndex := 0
    trace := w.trace.filter Event.isSession }

/-- The program only talks to servers. -/
structure Talks (x : M N α) : Prop where
  detached : Detached x
  keeps : Keeps World.stable x

section Rules

private theorem talks_pure (a : α) : Talks (pure a : M N α) := ⟨detached_pure a, keeps_pure a⟩

private theorem talks_throw (e : Fault) : Talks (throw e : M N α) :=
  ⟨detached_throw e, keeps_throw e⟩

private theorem talks_bind {x : M N α} {f : α → M N β} (hx : Talks x) (hf : ∀ a, Talks (f a)) :
    Talks (x >>= f) :=
  ⟨detached_bind hx.detached fun a ↦ (hf a).detached, keeps_bind hx.keeps fun a ↦ (hf a).keeps⟩

private theorem talks_ite {p : Prop} [Decidable p] {x y : M N α} (hx : Talks x) (hy : Talks y) :
    Talks (if p then x else y) :=
  ⟨detached_ite hx.detached hy.detached, keeps_ite hx.keeps hy.keeps⟩

private theorem talks_forM {l : List α} {f : α → M N PUnit} (hf : ∀ a, Talks (f a)) :
    Talks (forM l f) :=
  ⟨detached_forM fun a ↦ (hf a).detached, keeps_forM fun a _ ↦ (hf a).keeps⟩

private theorem talks_foldlM {l : List α} {f : β → α → M N β} (hf : ∀ b a, Talks (f b a)) (b : β) :
    Talks (l.foldlM f b) :=
  ⟨detached_foldlM (fun b a ↦ (hf b a).detached) b,
    keeps_foldlM (fun b a _ ↦ (hf b a).keeps) b⟩

/-- Looking at what talking does not change only talks. -/
theorem talks_look {v : World N → α}
    (h : ∀ (w : World N) m t, v { w with msg := m, trace := t } = v w) : Talks (look v) :=
  ⟨detached_look h, fun _ ↦ rfl⟩

end Rules

/-- Looking at a record only talks. -/
theorem talks_server (q2 : Fin N) : Talks (server q2) := talks_look fun _ _ _ ↦ rfl

/-- Changing a record is detached. -/
theorem detached_modifyServer (q2 : Fin N) (f : Q2Server → Q2Server) :
    Detached (modifyServer q2 f) := detached_modify (fun _ ↦ rfl) fun _ _ _ ↦ rfl

/-- A record that changes only in its buffer and its count of pings. -/
theorem stable_updateServer (w : World N) (q2 : Fin N) {f : Q2Server → Q2Server}
    (hf : (f (w.servers q2)).stable = (w.servers q2).stable) :
    (w.updateServer q2 f).stable = w.stable := by
  have h : (fun s ↦ ((w.updateServer q2 f).servers s).stable) = fun s ↦ (w.servers s).stable := by
    funext s
    by_cases hs : s = q2
    · rw [hs, World.updateServer_self, hf]
    · rw [World.updateServer_of_ne _ _ hs]
  exact congrArg (fun g ↦ { w.stable with servers := g }) h

/-- Changing the output buffer or the count of pings only talks. -/
theorem talks_modifyServer (q2 : Fin N) {f : Q2Server → Q2Server}
    (hf : ∀ s, (f s).stable = s.stable) : Talks (modifyServer q2 f) :=
  ⟨detached_modifyServer q2 f, keeps_modify fun w ↦ stable_updateServer w q2 (hf _)⟩

/-- Noting an event is detached. -/
theorem detached_logEvent (e : Event) : Detached (logEvent e : M N Unit) := by
  intro m t t'
  apply mirrors_modify
  intro w w' hw
  rcases hw with ⟨es, hes, rfl⟩
  exact ⟨e :: es, by rw [hes]; rfl, rfl⟩

private theorem talks_logEvent {e : Event} (he : e.isSession = false) :
    Talks (logEvent e : M N Unit) := by
  refine ⟨detached_logEvent e, keeps_modify fun w ↦ ?_⟩
  have h : (e :: w.trace).filter Event.isSession = w.trace.filter Event.isSession :=
    List.filter_cons_of_neg (by rw [he]; exact Bool.false_ne_true)
  exact congrArg (fun t ↦ { w.stable with trace := t }) h

/-- A writer on an output buffer only talks. -/
theorem talks_onOut (q2 : Fin N) (x : BufM α) : Talks (onOut q2 x) := by
  refine ⟨fun m t t' ↦ mirrors_zoom ?_ ?_, keeps_zoom fun u w ↦ ?_⟩
  · rintro w w' ⟨e, _, rfl⟩
    rfl
  · rintro u w w' ⟨e, he, rfl⟩
    exact ⟨e, he, rfl⟩
  · exact stable_updateServer w q2 (f := fun s ↦ { s with msg := u }) rfl

private theorem detached_createHandle (q2 : Fin N) (cell : Cell) :
    Detached (createHandle q2 cell) :=
  detached_bind (detached_look fun _ _ _ ↦ rfl) fun _ ↦
    detached_bind (detached_modify (fun _ ↦ rfl) fun _ _ _ ↦ rfl) fun _ ↦
      detached_bind (detached_logEvent _) fun _ ↦ detached_pure _

/-- A fault or a result only talks. -/
theorem talks_liftFault (x : Except Fault α) : Talks (liftFault x : M N α) := by
  cases x with
  | ok a => exact talks_pure a
  | error e => exact talks_throw e

private theorem talks_symmetricEncrypt (c : Crypto) (q2 : Fin N) (src : List UInt8) :
    Talks (symmetricEncrypt c q2 src) := by
  apply talks_bind (talks_server q2)
  intro s
  cases s.connection.eCtx with
  | none => exact talks_throw _
  | some h =>
    exact talks_bind (talks_logEvent rfl) fun _ ↦ talks_ite (talks_throw _) (talks_pure _)

private theorem talks_wireForm (c : Crypto) (q2 : Fin N) (plain : List UInt8) :
    Talks (wireForm c q2 plain) :=
  talks_bind (talks_server q2) fun _ ↦
    talks_ite (talks_symmetricEncrypt c q2 plain) (talks_pure _)

/-- `SendBuffer` only talks. -/
theorem talks_sendBuffer (c : Crypto) (q2 : Fin N) : Talks (sendBuffer c q2) := by
  apply talks_bind (talks_server q2)
  intro s
  refine talks_ite (talks_pure _) (talks_ite (talks_pure _) ?_)
  exact talks_bind (talks_wireForm c q2 _) fun _ ↦ talks_bind (talks_look fun _ _ _ ↦ rfl) fun _ ↦
    talks_bind (talks_logEvent rfl) fun _ ↦ talks_modifyServer q2 fun _ ↦ rfl

private theorem detached_listServer (i : Nat) (q2 : Fin N) : Detached (listServer i q2) := by
  refine detached_bind (talks_server q2).detached fun s ↦ detached_ite (detached_pure _) ?_
  exact detached_bind (detached_modify (fun _ ↦ rfl) fun _ _ _ ↦ rfl) fun _ ↦
    detached_bind (detached_modifyServer q2 _) fun _ ↦ detached_pure _

/-- `remove_server_socket` is detached. -/
theorem detached_removeServerSocket : Detached (removeServerSocket : M N Unit) :=
  detached_bind (detached_foldlM detached_listServer 1) fun _ ↦
    detached_modify (fun _ ↦ rfl) fun _ _ _ ↦ rfl

/-- Freeing a handle only talks. -/
theorem talks_release (q2 : Fin N) (cell : Cell) (handle : Option Nat) :
    Talks (release q2 cell handle) := by
  cases handle with
  | none => exact talks_pure _
  | some h => exact talks_logEvent rfl

/-- `CloseConnection` is detached. -/
theorem detached_closeConnection (q2 : Fin N) : Detached (closeConnection q2) :=
  detached_bind (talks_server q2).detached fun _ ↦
    detached_bind (talks_release q2 _ _).detached fun _ ↦
      detached_bind (talks_release q2 _ _).detached fun _ ↦
        detached_bind (talks_release q2 _ _).detached fun _ ↦
          detached_bind (detached_logEvent _) fun _ ↦
            detached_bind (detached_modifyServer q2 _) fun _ ↦ detached_removeServerSocket

/-- `va` only talks. -/
theorem talks_va (format : List Piece) : Talks (va format : M N CharPtr) := by
  have hkeeps {f : World N → World N} (hf : ∀ w, (f w).stable = w.stable)
      (ht : ∀ w, (f w).trace = w.trace)
      (hd : ∀ (w : World N) m t,
        f { w with msg := m, trace := t } = { f w with msg := m, trace := t }) :
      Talks (modify f) := ⟨detached_modify ht hd, keeps_modify hf⟩
  apply talks_bind (talks_look fun _ _ _ ↦ rfl)
  intro slot
  refine talks_bind (hkeeps (fun _ ↦ rfl) (fun _ ↦ rfl) fun _ _ _ ↦ rfl) fun _ ↦ ?_
  apply talks_ite (talks_throw _)
  exact talks_bind (hkeeps (fun _ ↦ rfl) (fun _ ↦ rfl) fun _ _ _ ↦ rfl) fun _ ↦ talks_pure _

/-- Following a pointer to a string only talks. -/
theorem talks_strAt (p : CharPtr) : Talks (strAt p : M N (List UInt8)) :=
  talks_look fun _ _ _ ↦ rfl

/-- Writing a text for a client only talks. -/
theorem talks_clientText (q2 : Fin N) (cl type : UInt8) (text : CharPtr) :
    Talks (clientText q2 cl type text) :=
  talks_bind (talks_strAt text) fun _ ↦ talks_onOut q2 _

private theorem talks_catPlayer (q2 : Fin N) (players : List UInt8) (i : Nat) :
    Talks (catPlayer q2 players i) :=
  talks_bind (talks_server q2) fun _ ↦ talks_bind (talks_va _) fun _ ↦
    talks_bind (talks_strAt _) fun _ ↦ talks_ite (talks_throw _) (talks_pure _)

private theorem talks_teleportServer (str : CharPtr) (q2 : Fin N) :
    Talks (teleportServer str q2) := by
  refine talks_bind (talks_server q2) fun _ ↦ talks_ite (talks_pure _) ?_
  apply talks_bind (talks_foldlM (talks_catPlayer q2) [])
  intro _
  exact talks_ite (talks_throw _) (talks_va _)

/-- Listing the servers to teleport to only talks. -/
theorem talks_buildTeleportServers : Talks (buildTeleportServers : M N CharPtr) :=
  talks_foldlM talks_teleportServer _

/-- `SendError` only talks. -/
theorem talks_sendError (c : Crypto) (q2 : Fin N) (error id : UInt8) (msg : List UInt8) :
    Talks (sendError c q2 error id msg) :=
  talks_bind (talks_onOut q2 _) fun _ ↦ talks_sendBuffer c q2

/-- `Pong` only talks. -/
theorem talks_pong (c : Crypto) (q2 : Fin N) : Talks (pong c q2) :=
  talks_bind (talks_onOut q2 _) fun _ ↦
    talks_bind (talks_modifyServer q2 fun _ ↦ rfl) fun _ ↦ talks_sendBuffer c q2

/-- `ParseTeleport` behind its readers only talks. -/
theorem talks_teleport (c : Crypto) (q2 : Fin N) (clientId : UInt8) (location : List UInt8) :
    Talks (teleport c q2 clientId location) := by
  refine talks_ite ?_ ?_
  · exact talks_bind talks_buildTeleportServers fun _ ↦
      talks_bind (talks_clientText q2 _ _ _) fun _ ↦ talks_sendBuffer c q2
  · apply talks_bind (talks_look fun _ _ _ ↦ rfl)
    intro found
    cases found with
    | some f =>
      exact talks_bind (talks_server f) fun _ ↦ talks_bind (talks_va _) fun _ ↦
        talks_bind (talks_va _) fun _ ↦ talks_bind (talks_clientText q2 _ _ _) fun _ ↦
          talks_bind (talks_strAt _) fun _ ↦ talks_bind (talks_onOut q2 _) fun _ ↦
            talks_sendBuffer c q2
    | none =>
      exact talks_bind (talks_va _) fun _ ↦
        talks_bind (talks_clientText q2 _ _ _) fun _ ↦ talks_sendBuffer c q2

/-- The round of `ParseInvite` for a server only talks. -/
theorem talks_sayAll (c : Crypto) (message : List UInt8) (s : Fin N) :
    Talks (sayAll c message s) :=
  talks_bind (talks_server s) fun _ ↦ talks_ite (talks_pure _)
    (talks_bind (talks_onOut s _) fun _ ↦ talks_sendBuffer c s)

/-- `ParseInvite` behind its readers only talks. -/
theorem talks_invite (c : Crypto) (q2 : Fin N) (clientId : UInt8) (text : List UInt8) :
    Talks (invite c q2 clientId text) := by
  refine talks_bind (talks_server q2) fun s ↦ talks_bind (talks_va _) fun _ ↦ ?_
  exact talks_bind (talks_strAt _) fun _ ↦ talks_forM (talks_sayAll c _)

/-- Answering an accepted AUTH only talks. -/
theorem talks_acceptAuth (c : Crypto) (q2 : Fin N) : Talks (acceptAuth c q2) :=
  talks_bind (talks_onOut q2 _) fun _ ↦ talks_sendBuffer c q2

/-- Entering a player into the table is detached. -/
theorem detached_enterPlayer (q2 : Fin N) (clientId : UInt8) (userinfo : List UInt8) :
    Detached (enterPlayer q2 clientId userinfo) :=
  detached_bind (talks_liftFault _).detached fun _ ↦ detached_modifyServer q2 _

/-- Connecting a player is detached. -/
theorem detached_playerConnect (q2 : Fin N) (clientId : UInt8) (userinfo : List UInt8) :
    Detached (playerConnect q2 clientId userinfo) :=
  detached_bind (detached_enterPlayer q2 _ _) fun _ ↦ detached_modifyServer q2 _

/-- Listing a player is detached. -/
theorem detached_listPlayer (q2 : Fin N) (slot clientId : UInt8) (userinfo : List UInt8) :
    Detached (listPlayer q2 slot clientId userinfo) :=
  detached_bind (detached_modifyServer q2 _) fun _ ↦
    detached_bind (talks_liftFault _).detached fun _ ↦ detached_modifyServer q2 _

private theorem detached_grantTrust (q2 : Fin N) : Detached (grantTrust q2) :=
  detached_bind (detached_createHandle q2 _) fun _ ↦
    detached_bind (detached_modifyServer q2 _) fun _ ↦
    detached_bind (detached_createHandle q2 _) fun _ ↦
      detached_bind (detached_modifyServer q2 _) fun _ ↦
        detached_bind (detached_modifyServer q2 _) fun _ ↦
          detached_bind (talks_server q2).detached fun _ ↦ detached_logEvent _

/-- Checking an answer is detached. -/
theorem detached_checkAnswer (c : Crypto) (q2 : Fin N) (cipher : List UInt8) :
    Detached (checkAnswer c q2 cipher) := by
  refine detached_ite (detached_throw _) (detached_bind (talks_server q2).detached fun s ↦ ?_)
  cases s.publickey with
  | none => exact detached_throw _
  | some k =>
    apply detached_bind (detached_logEvent _)
    intro _
    cases c.rsaPublicDecrypt k.key cipher with
    | none => exact detached_pure _
    | some plaintext =>
      refine detached_ite (detached_throw _) (detached_ite (detached_pure _) ?_)
      exact detached_ite (detached_bind (detached_grantTrust q2) fun _ ↦ detached_pure _)
        (detached_pure _)

/-- Refusing an AUTH is detached. -/
theorem detached_refuseAuth (c : Crypto) (q2 : Fin N) : Detached (refuseAuth c q2) :=
  detached_bind (talks_onOut q2 _).detached fun _ ↦
    detached_bind (talks_sendBuffer c q2).detached fun _ ↦ detached_closeConnection q2

/-- Concluding an AUTH is detached. -/
theorem detached_concludeAuth (c : Crypto) (q2 : Fin N) (verified : Bool) :
    Detached (concludeAuth c q2 verified) :=
  detached_ite (talks_acceptAuth c q2).detached
    (detached_bind (detached_refuseAuth c q2) fun _ ↦ (talks_acceptAuth c q2).detached)

/-- Loading the public key of a server is detached. -/
theorem detached_loadClientPublicKey (env : HelloEnv) (q2 : Fin N) :
    Detached (loadClientPublicKey env q2) := by
  unfold loadClientPublicKey
  cases env.keyFile with
  | missing => exact detached_throw _
  | noMemory => exact detached_modifyServer q2 _
  | unreadable =>
    exact detached_bind (detached_createHandle q2 _) fun _ ↦ detached_modifyServer q2 _
  | holds key => exact detached_bind (detached_createHandle q2 _) fun _ ↦ detached_modifyServer q2 _

/-- Writing the session key is detached. -/
theorem detached_sendSessionKey (env : HelloEnv) (q2 : Fin N) :
    Detached (sendSessionKey env q2) := by
  refine detached_bind (talks_server q2).detached fun s ↦ detached_ite (detached_pure _) ?_
  apply detached_bind (detached_modifyServer q2 _)
  intro _
  cases s.publickey with
  | none => exact detached_throw _
  | some k =>
    exact detached_bind (detached_logEvent _) fun _ ↦
      detached_bind (detached_modifyServer q2 _) fun _ ↦ (talks_onOut q2 _).detached

private theorem detached_serverAuthResponse (c : Crypto) (env : HelloEnv) (q2 : Fin N)
    (challenge : Field 16) : Detached (serverAuthResponse c env q2 challenge) := by
  apply detached_bind (detached_modifyServer q2 _)
  intro _
  refine detached_ite (detached_throw _) (detached_ite ?_ ?_)
  · exact detached_bind (talks_server q2).detached fun _ ↦
      detached_bind (talks_release q2 _ _).detached fun _ ↦ detached_pure _
  · exact detached_bind (talks_onOut q2 _).detached fun _ ↦
      detached_bind (detached_sendSessionKey env q2) fun _ ↦
        detached_bind (talks_onOut q2 _).detached fun _ ↦
          detached_bind (talks_sendBuffer c q2).detached fun _ ↦ detached_pure _

/-- Registering a HELLO is detached. -/
theorem detached_registerHello (c : Crypto) (env : HelloEnv) (index : Nat) (h : Hello) :
    Detached (registerHello c env index h : M N (Option (Fin N))) := by
  apply detached_bind (detached_look fun _ _ _ ↦ rfl)
  intro found
  cases found with
  | none => exact detached_pure _
  | some q2 =>
    have hbind : Detached (bindServer env h index q2) :=
      detached_bind (detached_look fun _ _ _ ↦ rfl) fun _ ↦
        detached_bind (detached_modifyServer q2 _) fun _ ↦
          detached_bind (detached_logEvent _) fun _ ↦ detached_loadClientPublicKey env q2
    refine detached_bind hbind fun _ ↦
      detached_bind (detached_serverAuthResponse c env q2 _) fun _ ↦ ?_
    exact detached_ite (detached_pure _)
      (detached_bind (talks_sendError c q2 _ _ _).detached fun _ ↦ detached_pure _)

end Q2Admin
