import Q2Admin.Session.Hello
import Q2Admin.Command.Message

/-!
# What a HELLO does to sessions

Library `Q2Admin.Session`. A HELLO binds its socket to the server with its key, and then
it is answered or the socket is turned away. `Reception` is what decides how the messages
of a server are received: `greeted` predicts it from the HELLO and its environment, so
that the operations of the commands behind a HELLO are known before it runs.
-/

namespace Q2Admin

open Exec

variable {N : Nat}

/-- What decides how the messages of a server are received. -/
structure Reception where
  credentials : Option (List UInt8) × Field 16
  encrypted : Bool
  trusted : Bool
  aeskey : Field 16
  iv : Field 16

/-- The part of a record that decides how its messages are received. -/
def Q2Server.reception (s : Q2Server) : Reception :=
  ⟨s.credentials, s.connection.encrypted, s.trusted, s.connection.aeskey, s.connection.iv⟩

/-- What a message does to the session of the server with this record. -/
def Q2Server.messageOps (c : Crypto) (s : Q2Server) (m : MsgBuffer) : List SessionOp :=
  sessionOps c s ((s.commands c m).getD [])

/-- What a message is deciphered to depends on how the server receives. -/
theorem plainMessage_congr (c : Crypto) {s s' : Q2Server} (h : s.reception = s'.reception)
    (m : MsgBuffer) : s.plainMessage c m = s'.plainMessage c m := by
  have he : s.connection.encrypted = s'.connection.encrypted := congrArg Reception.encrypted h
  have ht : s.trusted = s'.trusted := congrArg Reception.trusted h
  have hk : s.connection.aeskey = s'.connection.aeskey := congrArg Reception.aeskey h
  have hi : s.connection.iv = s'.connection.iv := congrArg Reception.iv h
  unfold Q2Server.plainMessage Q2Server.secure
  rw [he, ht, hk, hi]

/-- What a message does to the sessions depends on how the server receives. -/
theorem messageOps_congr (c : Crypto) {s s' : Q2Server} (h : s.reception = s'.reception)
    (m : MsgBuffer) : s.messageOps c m = s'.messageOps c m := by
  have hcred : s.credentials = s'.credentials := congrArg Reception.credentials h
  have hops : Command.sessionOp c s = Command.sessionOp c s' := funext (sessionOp_congr c hcred)
  unfold Q2Server.messageOps Q2Server.commands sessionOps
  rw [plainMessage_congr c h, hops]

private theorem core_aside (w : World N) {l : List Event} (hl : ∀ e ∈ l, e.isSession = false) :
    { w with trace := l ++ w.trace }.core = w.core := by
  have hnil : l.filter Event.isSession = [] :=
    List.filter_eq_nil_iff.mpr fun e he ↦ by simp [hl e he]
  refine congrArg (fun t ↦ { w.core with trace := t }) ?_
  rw [List.filter_append, hnil]
  rfl

/-- Deciphering a message does not show in the sessions. -/
theorem core_deciphering (w₁ : World N) (q2 : Fin N) (w : World N) :
    { w with trace := w₁.deciphering q2 ++ w.trace }.core = w.core := by
  apply core_aside
  rcases w₁.uses_deciphering q2 with he | ⟨_, _, _, he⟩
  · simp [he]
  · simp [he, Event.isSession]

/-- A message acts on the sessions as its operations. -/
theorem core_parseMessage {c : Crypto} {q2 : Fin N} {w w' : World N}
    (h : (parseMessage c q2).run w = .ok () w') :
    w'.core = w.core.applyAll q2 ((w.servers q2).messageOps c w.msg) := by
  obtain ⟨_, cmds, m, hr, hx⟩ := parseMessage_ok h
  have hcore : { w with msg := m, trace := w.deciphering q2 ++ w.trace }.core = w.core :=
    core_deciphering w q2 { w with msg := m }
  rw [core_execAll hx, hcore]
  unfold Q2Server.messageOps Q2Server.commands
  rw [hr]
  rfl

/-- The reception of a server after an answered HELLO, in a record of its own. -/
def Q2Server.greeted (env : HelloEnv) (h : Hello) (s : Q2Server) : Q2Server :=
  { s with
    publickey := env.keyFile.key.map (RsaKey.mk 0)
    connection :=
      { s.connection with
        encrypted := h.encrypted ≠ 0
        clChallenge := strncpy 16 env.challenge.bytes
        aeskey := if h.encrypted ≠ 0 then env.aeskey else s.connection.aeskey
        iv := if h.encrypted ≠ 0 then env.iv else s.connection.iv } }

private theorem core_claimed (w : World N) (h : Hello) (i : Nat) (q2 : Fin N) :
    (w.claimed h i q2).core = w.core.bind q2 i h.port h.maxClients := by
  let f := Q2Server.claim h i (w.sockets i).fd
  have hcore := core_log (w.updateServer q2 f) (e := .bound q2 (w.sockets i).fd) rfl
  rw [core_updateServer w q2 (f := f) (g := fun r ↦
    { r with
      index := i, socket := (w.sockets i).fd, connected := true, port := h.port,
      maxclients := h.maxClients }) rfl] at hcore
  exact hcore

private theorem core_keyed (w : World N) (q2 : Fin N) (f : KeyFile) :
    (w.keyed q2 f).core = w.core := by
  have haside : ∀ e ∈ f.creating q2 w.nextHandle, e.isSession = false := by
    unfold KeyFile.creating
    split <;> simp [Event.isSession]
  refine (core_aside _ haside).trans ?_
  exact core_assign w q2 fun _ ↦ rfl

private theorem core_answered (w : World N) (env : HelloEnv) (q2 : Fin N) :
    (w.answered env q2).core = w.core := by
  have haside : ∀ e ∈ (w.servers q2).sharing q2, e.isSession = false := by
    unfold Q2Server.sharing
    split
    · cases (w.servers q2).publickey <;> simp [Event.isSession]
    · simp
  refine (core_aside _ haside).trans ?_
  exact core_assign w q2 fun _ ↦ rfl

private theorem core_unanswered (w : World N) (env : HelloEnv) (q2 : Fin N) :
    (w.unanswered env q2).core = w.core := by
  have haside : ∀ e ∈ World.releasing q2 .key ((w.servers q2).publickey.map RsaKey.handle),
      e.isSession = false := by
    cases (w.servers q2).publickey <;> simp [World.releasing, Event.isSession]
  refine (core_aside _ haside).trans ?_
  exact core_assign w q2 fun _ ↦ rfl

/-- What becomes of the sessions when a HELLO is answered or not. -/
theorem seen_serverAuthResponse {c : Crypto} {env : HelloEnv} {q2 : Fin N}
    {challenge : Field 16} {b : Bool} {w w' : World N}
    (h : (serverAuthResponse c env q2 challenge).run w = .ok b w') :
    b = env.answers challenge ∧ w'.core = w.core ∧
      (b = true → (w'.servers q2).reception =
        (((w.servers q2).challenge env).share env).reception) := by
  obtain ⟨hb, hw⟩ := serverAuthResponse_ok h
  refine ⟨hb, ?_⟩
  cases b with
  | true =>
    obtain ⟨m, _, hs⟩ := hw
    have htalk := talks_sendBuffer c q2
    refine ⟨?_, fun _ ↦ ?_⟩
    · rw [htalk.keeps_core.ok hs, core_holding, core_answered]
    · rw [(htalk.keeps_server (v := Q2Server.reception) (fun _ ↦ rfl) q2).ok hs,
        World.holding_self, World.answered_self]
      rfl
  | false =>
    rw [if_neg (by simp)] at hw
    rw [hw]
    exact ⟨core_unanswered w env q2, fun hb ↦ by cases hb⟩

/-- What becomes of the sessions when a HELLO is registered. -/
theorem seen_registerHello {c : Crypto} {env : HelloEnv} {i : Nat} {h : Hello} {w w' : World N}
    {found : Option (Fin N)} (hr : (registerHello c env i h).run w = .ok found w') :
    w'.msg = w.msg ∧
    match w.serverOfKey h.key with
    | none => found = none ∧ w'.core = w.core
    | some q2 =>
      found = (if env.answers h.challenge then some q2 else none) ∧
      w'.core = w.core.bind q2 i h.port h.maxClients ∧
      (env.answers h.challenge = true →
        (w'.servers q2).reception = ((w.servers q2).greeted env h).reception) := by
  refine ⟨(detached_registerHello c env i h).blind.keeps.ok hr, ?_⟩
  cases hkey : w.serverOfKey h.key with
  | none =>
    rw [registerHello_unknown hkey] at hr
    cases hr
    exact ⟨rfl, rfl⟩
  | some q2 =>
    obtain ⟨_, hfound, plain, rfl, _⟩ := registerHello_ok hkey hr
    refine ⟨hfound, ?_, fun hanswers ↦ ?_⟩
    · have hgreeting : (w.replying env h i q2).core = w.core.bind q2 i h.port h.maxClients := by
        unfold World.replying
        rw [← core_claimed, ← core_keyed (w.claimed h i q2) q2 env.keyFile]
        split
        · exact core_answered _ env q2
        · exact core_unanswered _ env q2
      rw [core_posted, hgreeting]
    · unfold World.replying
      rw [if_pos hanswers, World.posted_self, World.answered_self, World.keyed_self,
        World.claimed_self]
      have hkey : (env.keyFile.key.map (RsaKey.mk (w.claimed h i q2).nextHandle)).map RsaKey.key =
          (env.keyFile.key.map (RsaKey.mk 0)).map RsaKey.key := by
        rw [Option.map_map, Option.map_map]
        rfl
      unfold Q2Server.greeted Q2Server.reception Q2Server.credentials
      simp only [Q2Server.hold, Q2Server.share, Q2Server.challenge, Q2Server.keyed,
        Q2Server.claim, decide_eq_true_eq, hkey]

end Q2Admin
