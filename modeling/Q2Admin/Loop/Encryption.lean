import Q2Admin.Session.Sealing
import Q2Admin.Session.Frames
import Q2Admin.Loop.Broadcast

/-!
# When messages are enciphered

Library `Q2Admin.Loop`. Source `server.c:256–271` and `server.c:317–343`. A HELLO agrees on a
session key, but `SendBuffer` uses it only when the server is trusted as well. A history variable
keeps what the last HELLO for each server has agreed on; `sealed_once_trusted` says that every
message is in the form that follows from it and from trust.
-/

namespace Q2Admin

open Exec

variable {N : Nat}

/-- What a HELLO that is answered agrees on for its connection. -/
structure Agreement where
  encrypted : Bool
  aeskey : Field 16
  iv : Field 16

/-- What is agreed on when this HELLO is answered. -/
def HelloEnv.agreement (env : HelloEnv) (h : Hello) : Agreement :=
  ⟨h.encrypted ≠ 0, env.aeskey, env.iv⟩

/-- The form of a message on a connection, before its server is trusted and after. -/
def Agreement.form (c : Crypto) (g : Agreement) (trusted : Bool) (plain : List UInt8) :
    List UInt8 :=
  if g.encrypted && trusted then c.aesEncrypt g.aeskey g.iv plain else plain

/-- What is agreed on for each server, if the last HELLO for it has been answered. -/
abbrev Agreements (N : Nat) := Fin N → Option Agreement

/-- The agreements after a step. -/
def moveAgreed : Move → World N → Agreements N → Agreements N
  | .poll _, _, a => a
  | .serve env, w, a =>
    match w.greeting env w.scan with
    | some (q2, h, _) =>
      Function.update a q2
        (if env.hello.answers h.challenge then some (env.hello.agreement h) else none)
    | none => a

/-- A step, with the agreements beside the state. -/
def stepAgreed (c : Crypto) : Move → World N × Agreements N → Option (World N × Agreements N) :=
  watching (step c) moveAgreed

section Moments

variable (c : Crypto) (rows : Fin N → Row) (listener : Nat) (junk : Nat → PollFd)

/-- The states of the loop, with the agreements. -/
def Looped (a : Agreements N) (w : World N) : Prop :=
  ∃ ms, Run (stepAgreed c) Unguarded ms (initial rows listener junk, fun _ ↦ none) (w, a)

/-- A HELLO is answered in a state of the loop. -/
structure Greets (a : Agreements N) (q2 : Fin N) (w w' : World N) : Prop where
  hello : ∃ a₀ v env h m, Looped c rows listener junk a₀ v ∧ v.scan < v.socketCount ∧
    v.greeting env v.scan = some (q2, h, m) ∧ env.hello.answers h.challenge = true ∧
    a = moveAgreed (.serve env) v a₀ ∧ w = { v.receiving env.recv v.scan with msg := m } ∧
    (registerHello c env.hello v.scan h).run w = .ok (some q2) w'

/-- The states between two commands, with the agreements: those of the loop, and those that the
first rounds of the loop of `ParseMessage` leave. -/
inductive Moment : Agreements N → World N → Prop
  | loop {a : Agreements N} {w : World N} (looped : Looped c rows listener junk a w) : Moment a w
  | message {a : Agreements N} {w w' : World N} {q2 : Fin N}
      (looped : Looped c rows listener junk a w) (recv : Recv) (slot : w.scan < w.socketCount)
      (client : (w.sockets w.scan).fd ≠ w.listener) (owner : w.getServer w.scan = some q2)
      (n : Nat) (rounds : (decryptMessage c q2 >>= fun _ ↦ parseLoop c q2 n).run
        (w.receiving recv w.scan) = .ok () w') : Moment a w'
  | hello {a : Agreements N} {w w₁ w' : World N} {q2 : Fin N}
      (greets : Greets c rows listener junk a q2 w w₁) (n : Nat)
      (rounds : (decryptMessage c q2 >>= fun _ ↦ parseLoop c q2 n).run w₁ = .ok () w') :
      Moment a w'

/-- The acts in which messages are sent to servers, with the agreements in force and the servers
that they are for: a HELLO is answered, or a command is executed. -/
inductive Act : Agreements N → (Fin N → Prop) → World N → World N → Prop
  | hello {a : Agreements N} {w w' : World N} {q2 : Fin N}
      (greets : Greets c rows listener junk a q2 w w') : Act a (fun s ↦ s = q2) w w'
  | command {a : Agreements N} {w w' : World N} (moment : Moment c rows listener junk a w)
      (q2 : Fin N) (cmd : Command) (run : (exec c q2 cmd).run w = .ok () w') :
      Act a (fun s ↦ s = q2 ∨ cmd.isInvite = true) w w'

end Moments

/-- The part of a record that an agreement is about. -/
def Q2Server.terms (s : Q2Server) : Agreement :=
  ⟨s.connection.encrypted, s.connection.aeskey, s.connection.iv⟩

/-- The record stands to the agreement. -/
structure Agreement.Kept (g : Agreement) (s : Q2Server) : Prop where
  encrypted : s.terms.encrypted = g.encrypted
  key : g.encrypted = true → s.terms.aeskey = g.aeskey ∧ s.terms.iv = g.iv

/-- Whether an agreement is kept depends on the terms of the connection only. -/
theorem Agreement.Kept.congr {g : Agreement} {s s' : Q2Server} (h : g.Kept s)
    (hterms : s'.terms = s.terms) : g.Kept s' := by
  refine ⟨?_, fun hg ↦ ?_⟩
  · rw [hterms]
    exact h.encrypted
  · rw [hterms]
    exact h.key hg

/-- Every record stands to what has been agreed on for it. -/
def World.Honours (w : World N) (a : Agreements N) : Prop :=
  ∀ s, ∀ g ∈ a s, g.Kept (w.servers s)

section Kept

variable {c : Crypto} {q2 : Fin N} {a : Agreements N} {w w' : World N}

/-- Whether agreements are honoured depends on the terms of the connections only. -/
theorem World.Honours.congr (h : w.Honours a)
    (hterms : ∀ s, (w'.servers s).terms = (w.servers s).terms) : w'.Honours a :=
  fun s g hg ↦ (h s g hg).congr (hterms s)

/-- Commands leave the terms of all connections alone. -/
theorem terms_exec {cmd : Command} (h : (exec c q2 cmd).run w = .ok () w') (s : Fin N) :
    (w'.servers s).terms = (w.servers s).terms :=
  (keeps_lasting_exec (v := Q2Server.terms) (fun _ ↦ rfl) c q2 s cmd).ok h

private theorem terms_execAll {cmds : List Command} (h : (forM cmds (exec c q2)).run w = .ok () w')
    (s : Fin N) : (w'.servers s).terms = (w.servers s).terms :=
  (keeps_forM fun cmd _ ↦
    keeps_lasting_exec (v := Q2Server.terms) (fun _ ↦ rfl) c q2 s cmd).ok h

/-- A HELLO leaves a record that stands to what it has agreed on, if it is answered, and no other
terms change. -/
theorem honours_register {env : Answer} {i : Nat} {h : Hello} {m : MsgBuffer}
    {found : Option (Fin N)} (hkept : w.Honours a) (greeting : w.greeting env i = some (q2, h, m))
    (register : (registerHello c env.hello i h).run { w.receiving env.recv i with msg := m } =
      .ok found w') :
    w'.Honours (Function.update a q2
      (if env.hello.answers h.challenge then some (env.hello.agreement h) else none)) := by
  have hkey : World.serverOfKey { w.receiving env.recv i with msg := m } h.key = some q2 :=
    (greeting_some greeting).2
  obtain ⟨_, _, plain, rfl, _⟩ := registerHello_ok hkey register
  intro s g hg
  by_cases hs : s = q2
  · subst hs
    rw [Function.update_self] at hg
    rw [World.posted_self, World.replying_self]
    by_cases hanswers : env.hello.answers h.challenge = true
    · rw [if_pos hanswers] at hg ⊢
      obtain rfl := Option.some.inj hg
      exact ⟨rfl, fun henc ↦ ⟨if_pos henc, if_pos henc⟩⟩
    · rw [if_neg hanswers] at hg
      cases hg
  · rw [Function.update_of_ne hs] at hg
    rw [World.posted_of_ne _ _ _ hs, World.replying_of_ne _ _ _ _ hs]
    exact hkept s g hg

private theorem moveAgreed_none {env : Answer} (h : w.greeting env w.scan = none) :
    moveAgreed (.serve env) w a = a := by
  unfold moveAgreed
  dsimp only
  rw [h]

private theorem moveAgreed_some {env : Answer} {h : Hello} {m : MsgBuffer}
    (greeting : w.greeting env w.scan = some (q2, h, m)) :
    moveAgreed (.serve env) w a = Function.update a q2
      (if env.hello.answers h.challenge then some (env.hello.agreement h) else none) := by
  unfold moveAgreed
  dsimp only
  rw [greeting]

private theorem honours_turn {env : Answer} (hturn : Turn c env w.scan w w') (h : w.Honours a) :
    w'.Honours (moveAgreed (.serve env) w a) := by
  have hindex (r : Q2Server) (i : Nat) : Q2Server.terms { r with index := i } = r.terms := rfl
  have hsilent (greeting : w.greeting env w.scan = none)
      (hterms : ∀ s, (w'.servers s).terms = (w.servers s).terms) :
      w'.Honours (moveAgreed (.serve env) w a) := by
    rw [moveAgreed_none greeting]
    exact h.congr hterms
  cases hturn with
  | idle same slot =>
    refine hsilent (silent_of_not_client c env slot).1 fun s ↦ ?_
    rw [same]
  | accept fd _ slot _ run =>
    refine hsilent (silent_of_not_client c env fun hs ↦ hs.2 slot).1 fun s ↦ ?_
    cases run
    rfl
  | hangUp q2 _ owner _ run =>
    exact hsilent (greeting_of_owner owner) fun s ↦
      ((keeps_server_hangUp hindex (fun _ ↦ rfl) s q2 _).ok run).trans rfl
  | peer request m slot owner read run =>
    exact hsilent (greeting_of_peer slot owner read) fun s ↦
      ((keeps_server_peer hindex c s _ request).ok run).trans rfl
  | stranger m _ _ unknown run =>
    exact hsilent unknown fun s ↦ ((keeps_server_turnAway hindex s _).ok run).trans rfl
  | message q2 cmds m _ owner _ run =>
    exact hsilent (greeting_of_owner owner) fun s ↦ (terms_execAll run s).trans rfl
  | refused q2 hello m w₁ _ _ greeting _ register run =>
    rw [moveAgreed_some greeting]
    exact (honours_register h greeting register).congr fun s ↦
      (keeps_server_turnAway hindex s _).ok run
  | hello q2 hello m w₁ cmds m' _ _ greeting _ _ register run =>
    rw [moveAgreed_some greeting]
    exact (honours_register h greeting register).congr fun s ↦ (terms_execAll run s).trans rfl

private theorem honours_step {m : Move} (hs : step c m w = some w') (h : w.Honours a) :
    w'.Honours (moveAgreed m w a) := by
  cases m with
  | poll ready =>
    rw [step_poll hs]
    exact h
  | serve env =>
    obtain ⟨w₁, hturn, rfl⟩ := step_turn hs
    have hhonours : w₁.Honours (moveAgreed (.serve env) w a) := honours_turn hturn h
    exact hhonours

end Kept

section Run

variable {c : Crypto} {rows : Fin N → Row} {listener : Nat} {junk : Nat → PollFd}
  {a : Agreements N} {q2 : Fin N} {w w' : World N}

private theorem Looped.honours (h : Looped c rows listener junk a w) : w.Honours a := by
  obtain ⟨ms, hrun⟩ := h
  refine hrun.invariant (I := fun p ↦ p.1.Honours p.2) (fun m p p' _ hs h ↦ ?_) ?_
  · obtain ⟨w', hstep, rfl⟩ := Option.map_eq_some_iff.mp hs
    exact honours_step hstep h
  · exact fun s g hg ↦ by cases hg

/-- What is reached with its agreements is reached. -/
theorem Looped.run (h : Looped c rows listener junk a w) :
    ∃ ms, Run (step c) Unguarded ms (initial rows listener junk) w := by
  obtain ⟨ms, hrun⟩ := h
  exact ⟨ms, run_watching.mpr ⟨a, hrun⟩⟩

/-- A HELLO that is answered makes its server the owner of the rest of the message. -/
theorem Greets.call (h : Greets c rows listener junk a q2 w w') :
    ParseCall c rows listener junk q2 w' := by
  obtain ⟨a₀, v, env, hello, m, hlooped, hslot, hgreeting, hanswers, _, rfl, hregister⟩ := h.hello
  obtain ⟨ms, hrun⟩ := hlooped.run
  obtain ⟨hclient, howner⟩ := client_of_greeting hgreeting
  exact .hello hrun hslot hclient.2 howner env.recv env.hello hello m (greeting_some hgreeting).1
    hregister

private theorem Greets.honours (h : Greets c rows listener junk a q2 w w') : w'.Honours a := by
  obtain ⟨a₀, v, env, hello, m, hlooped, hslot, hgreeting, hanswers, rfl, rfl, hregister⟩ := h.hello
  rw [moveAgreed_some hgreeting]
  exact honours_register hlooped.honours hgreeting hregister

/-- A moment between two commands is reached with its agreements. -/
theorem Moment.reached (h : Moment c rows listener junk a w) :
    Reached c rows listener junk w := by
  cases h with
  | loop looped =>
    obtain ⟨ms, hrun⟩ := looped.run
    exact .loop hrun
  | message looped recv slot client owner n rounds =>
    obtain ⟨ms, hrun⟩ := looped.run
    exact .rounds (.message hrun slot client owner recv) n rounds
  | hello greets n rounds => exact .rounds greets.call n rounds

private theorem honours_rounds {n : Nat}
    (h : (decryptMessage c q2 >>= fun _ ↦ parseLoop c q2 n).run w = .ok () w')
    (hw : w.Honours a) : w'.Honours a := by
  obtain ⟨cmds, m, hexec⟩ := rounds_exec h
  exact hw.congr fun s ↦ (terms_execAll hexec s).trans rfl

private theorem Moment.honours (h : Moment c rows listener junk a w) : w.Honours a := by
  cases h with
  | loop looped => exact looped.honours
  | message looped recv slot client owner n rounds => exact honours_rounds rounds looped.honours
  | hello greets n rounds => exact honours_rounds rounds greets.honours

/-- A record that stands to an agreement asks for messages in its form. -/
theorem Agreement.Kept.wire {g : Agreement} {s : Q2Server} (h : g.Kept s) (plain : List UInt8) :
    s.wire c plain = g.form c s.trusted plain := by
  have henc : s.connection.encrypted = g.encrypted := h.encrypted
  unfold Q2Server.wire Q2Server.secure Agreement.form
  rw [henc]
  by_cases hg : g.encrypted = true
  · obtain ⟨hkey, hiv⟩ := h.key hg
    have hkey' : s.connection.aeskey = g.aeskey := hkey
    have hiv' : s.connection.iv = g.iv := hiv
    rw [hkey', hiv']
  · rw [Bool.eq_false_iff.mpr hg]
    rfl

/-- The messages of an act are for the servers it is for; on a connection that an answered HELLO
has opened, each is plain as long as the server is not trusted, and enciphered with the session
key of this very HELLO from then on, if the HELLO has asked for that. -/
theorem sealed_once_trusted (c : Crypto) (rows : Fin N → Row) (listener : Nat)
    (junk : Nat → PollFd) (a : Agreements N) (audience : Fin N → Prop) (w w' : World N)
    (act : Act c rows listener junk a audience w w') :
    ∃ posts : List (Post N),
      w'.sends = (posts.map fun p ↦
        .sent (w'.servers p.receiver).socket p.plain p.wire).reverse ++ w.sends ∧
      ∀ p ∈ posts, audience p.receiver ∧ ∀ g ∈ a p.receiver,
        p.wire = g.form c (w'.servers p.receiver).trusted p.plain := by
  cases act with
  | @hello _ _ q2 greets =>
    have hhonours := greets.honours
    obtain ⟨a₀, v, env, hello, m, _, _, hgreeting, _, _, rfl, hregister⟩ := greets.hello
    have hkey : World.serverOfKey { v.receiving env.recv v.scan with msg := m } hello.key =
        some q2 := (greeting_some hgreeting).2
    generalize ({ v.receiving env.recv v.scan with msg := m } : World N) = u at hkey hregister ⊢
    obtain ⟨_, _, plain, rfl, _⟩ := registerHello_ok hkey hregister
    let r := (u.replying env.hello hello v.scan q2).servers q2
    refine ⟨[⟨q2, plain, r.wire c plain⟩], ?_, fun p hp ↦ ?_⟩
    · have hsocket : r.socket = (u.sockets v.scan).fd := by
        change ((u.replying env.hello hello v.scan q2).servers q2).socket = _
        rw [World.replying_self]
        dsimp only
        split <;> rfl
      rw [World.posted_sends, World.replying_sends, World.replying_wireOf, ← hsocket,
        List.map_singleton, List.reverse_singleton, World.posted_self]
      rfl
    · rw [List.mem_singleton.mp hp]
      refine ⟨rfl, fun g hg ↦ ?_⟩
      have hkept := hhonours q2 g hg
      rw [World.posted_self] at hkept ⊢
      exact hkept.wire plain
  | command moment q2 cmd run =>
    obtain ⟨posts, hsends, hproper⟩ := exec_posts run
    have hw := moment.reached.wf
    refine ⟨posts, ?_, fun p hp ↦ ⟨(hproper p hp).1, fun g hg ↦ ?_⟩⟩
    · rw [hsends]
      unfold World.mailing
      congr 2
      apply List.map_congr_left
      intro p hp
      have hsocket : (w'.servers p.receiver).socket = (w.servers p.receiver).socket :=
        (keeps_lasting_exec (v := Q2Server.socket) (fun _ ↦ rfl) c q2 p.receiver cmd).ok run
      have hwire : w.wireOf p.receiver = (w.servers p.receiver).socket :=
        (hw.slot p.receiver (hproper p hp).2.1).2
      rw [hsocket, hwire]
    · rw [(hproper p hp).2.2]
      exact ((moment.honours _ g hg).congr (terms_exec run _)).wire p.plain

end Run

-- The HELLO of a server with this key, which asks for encryption or not.
private def asking (key encrypted : UInt8) : List UInt8 :=
  [0x51, 0x32, 0x41, 0x43, 1, key, 0, 0, 0, 1, 0, 0, 0, 6, 109, 8, encrypted] ++
    List.replicate 16 1

private theorem asking_length_le (key encrypted : UInt8) :
    (asking key encrypted).length ≤ msgSize := by
  change 33 ≤ 65535
  omega

-- A server asks for encryption and answers its challenge.
private def sampleSealed : List Move :=
  [.poll [3], .accepting 4, .skip, .poll [4], .skip, .receiving (asking 5 1) (asking_length_le 5 1),
    .poll [4], .skip, .receiving sampleAuth sampleAuth_length_le]

/-- An invitation to a trusted server that has asked for encryption is enciphered. -/
theorem sealed_once_trusted_sample :
    ∃ (a : Agreements 1) (w w' : World 1), (∃ g ∈ a 0, g.encrypted = true) ∧
      (w'.servers 0).trusted = true ∧ w'.sends.length = w.sends.length + 1 ∧
      ∃ posts : List (Post 1),
        w'.sends = (posts.map fun p ↦
          .sent (w'.servers p.receiver).socket p.plain p.wire).reverse ++ w.sends ∧
        ∀ p ∈ posts, (p.receiver = 0 ∨ (Command.invite 0 (ascii "hi")).isInvite = true) ∧
          ∀ g ∈ a p.receiver,
            p.wire = g.form Crypto.clear (w'.servers p.receiver).trusted p.plain := by
  have h : (follow (stepAgreed Crypto.clear) Unguarded sampleSealed
      (sampleStart, fun _ ↦ none)).any (fun p ↦ (p.2 0).any Agreement.encrypted &&
        (returned (exec Crypto.clear 0 (.invite 0 (ascii "hi"))) p.1).any fun w' ↦
          (w'.servers 0).trusted && w'.sends.length == p.1.sends.length + 1) = true := by
    decide +kernel
  obtain ⟨⟨w, a⟩, hrun, hw⟩ := Run.exists_of_follow h
  obtain ⟨hasked, hret⟩ := Bool.and_eq_true_iff.mp hw
  obtain ⟨_, w', hexec, hw'⟩ := exists_of_returned hret
  obtain ⟨htrusted, hone⟩ := Bool.and_eq_true_iff.mp hw'
  exact ⟨a, w, w', (Option.any_eq_true _ _).mp hasked, htrusted, beq_iff_eq.mp hone,
    sealed_once_trusted Crypto.clear _ _ _ a _ w w' (.command (.loop ⟨_, hrun⟩) 0 _ hexec)⟩

/-- The event is a HELLO for the server. -/
def Event.binds (s : Nat) : Event → Bool
  | .bound q2 _ => q2 = s
  | _ => false

/-- The message is a SAYALL, a SAYCLIENT or a COMMAND. -/
def isText (plain : List UInt8) : Prop :=
  plain.head? = some scmdSayAll ∨ plain.head? = some scmdSayClient ∨
    plain.head? = some scmdCommand

/-- On connections whose HELLO has asked for encryption all texts have been enciphered with the
session key of the connection. -/
def Enciphered (c : Crypto) (a : Agreements N) (w : World N) : Prop :=
  ∀ s, ∀ g ∈ a s, g.encrypted = true → ∀ plain wire,
    .sent (w.servers s).socket plain wire ∈ w.trace.takeWhile (fun e ↦ !e.binds s) →
      isText plain → wire = c.aesEncrypt g.aeskey g.iv plain

-- Two servers, with the keys 5 and 6.
private def sealedRow (q2 : Fin 2) : Row :=
  ⟨1, 5 + q2.val.toUInt32, 0, ascii "s", ascii "h", 27910, true⟩

-- The first one asks for encryption, and before it sends an AUTH the second one invites.
private def sampleEarly : List Move :=
  [.poll [3], .accepting 4, .skip, .poll [4], .skip, .receiving (asking 5 1) (asking_length_le 5 1),
    .poll [3], .accepting 5, .skip, .skip, .poll [5], .skip, .skip,
    .receiving (asking 6 0 ++ [8, 1, 0, 120, 0]) (by decide)]

-- A text that goes to the socket as it is.
private def Event.isBare (fd : Nat) : Event → Bool
  | .sent g plain wire => g = fd && plain.head? = some scmdSayAll && plain = wire
  | _ => false

/-- An invitation that comes before the AUTH goes out as plain text. -/
theorem invitation_in_plain :
    ¬ ∀ (ms : List Move) (a : Agreements 2) (w : World 2),
      Run (stepAgreed Crypto.clear) Unguarded ms
        (initial sealedRow 3 fun _ ↦ ⟨0, false, false⟩, fun _ ↦ none) (w, a) →
      Enciphered Crypto.clear a w := by
  have h : (follow (stepAgreed Crypto.clear) Unguarded sampleEarly
      (initial sealedRow 3 fun _ ↦ ⟨0, false, false⟩, fun _ ↦ none)).any (fun p ↦
        (p.2 0).any Agreement.encrypted &&
          (p.1.trace.takeWhile fun e ↦ !e.binds (0 : Fin 2)).any
            (Event.isBare (p.1.servers 0).socket)) = true := by decide +kernel
  obtain ⟨⟨w, a⟩, hrun, hw⟩ := Run.exists_of_follow h
  obtain ⟨hasked, hbare⟩ := Bool.and_eq_true_iff.mp hw
  obtain ⟨g, hg, hencrypted⟩ := (Option.any_eq_true _ _).mp hasked
  obtain ⟨e, hmem, he⟩ := List.any_eq_true.mp hbare
  intro hall
  cases e with
  | sent fd plain wire =>
    simp only [Event.isBare, Bool.and_eq_true, decide_eq_true_eq] at he
    obtain ⟨⟨rfl, htext⟩, rfl⟩ := he
    have hwire := hall _ a w hrun 0 g hg hencrypted plain plain hmem (.inl htext)
    have hlen := congrArg List.length hwire
    rw [Crypto.aesEncrypt_length] at hlen
    omega
  | _ => cases he

end Q2Admin
