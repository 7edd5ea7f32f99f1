import Q2Admin.Session.Frames
import Q2Admin.Session.Replies
import Q2Admin.Loop.Trust

/-!
# The order of replies

Library `Q2Admin.Loop`. The output buffer belongs to a server and not to a connection, and what
is written to it while the server is not connected stays there. `replies_in_order` says for
which runs nothing stays: then every connection begins with the reply to its HELLO, and
TRUSTED is sent on it behind its own verification only. The messages are those as which the bytes
can be read, in one way only.
-/

namespace Q2Admin

open Exec

variable {N : Nat}

/-- What has happened on a descriptor since a HELLO bound it, newest first, if it has not been
closed since. -/
def connection (fd : Nat) : List Event → Option (List Event)
  | [] => none
  | .bound q2 g :: t => if g = fd then some [] else (connection fd t).map (.bound q2 g :: ·)
  | .closed g :: t => if g = fd then none else (connection fd t).map (.closed g :: ·)
  | e :: t => (connection fd t).map (e :: ·)

/-- The messages may be sent on a descriptor on whose connection these events have happened: what
is sent first is the reply to the HELLO alone, and TRUSTED is sent when the answer to the challenge
has been verified. -/
structure MaySend (fd : Nat) (es : List Event) (replies : List Reply) : Prop where
  first : (∀ plain wire, .sent fd plain wire ∉ es) → ∃ r, replies = [r] ∧ r.opens = true
  behind : ∀ plain wire, .sent fd plain wire ∈ es → ∀ r ∈ replies, r.opens = false
  trusted : .trusted ∈ replies → ∃ q2, .verified q2 fd ∈ es

/-- Bytes can be read in one way only as messages that may be sent. -/
theorem MaySend.unique {fd : Nat} {es : List Event} {l l' : List Reply} (h : MaySend fd es l)
    (h' : MaySend fd es l') (he : l.flatMap Reply.wire = l'.flatMap Reply.wire) : l = l' := by
  by_cases hno : ∀ plain wire, .sent fd plain wire ∉ es
  · obtain ⟨r, rfl, hr⟩ := h.first hno
    obtain ⟨r', rfl, hr'⟩ := h'.first hno
    simp only [List.flatMap_cons, List.flatMap_nil, List.append_nil] at he
    rw [Reply.opens_inj hr hr' he]
  · simp only [not_forall, not_not] at hno
    obtain ⟨plain, wire, hmem⟩ := hno
    exact Reply.wire_inj (h.behind plain wire hmem) (h'.behind plain wire hmem) he

/-- The bytes are the answer to a peer. -/
def IsPeerList (c : Crypto) (bytes : List UInt8) : Prop :=
  ∃ servers m, (peerList c servers).run .zero = .ok () m ∧ bytes = m.contents

/-- What is sent on a socket between these events can be read as messages that may be sent, in one
way only. Or it is the answer to a peer, on a socket that its server no longer uses and that is
closed behind it. -/
def InOrder (c : Crypto) (later : List Event) (fd : Nat) (plain : List UInt8)
    (earlier : List Event) : Prop :=
  ∀ es, connection fd earlier = some es →
    (∃! replies : List Reply, MaySend fd es replies ∧ replies.flatMap Reply.wire = plain) ∨
    (IsPeerList c plain ∧ (∃ plain wire, .sent fd plain wire ∈ es) ∧
      later.getLast? = some (.closed fd))

/-- Everything that was sent on a connection was sent in order. -/
def Orderly (c : Crypto) (trace : List Event) : Prop :=
  ∀ later fd plain wire earlier, trace = later ++ .sent fd plain wire :: earlier →
    InOrder c later fd plain earlier

/-- No byte that was written for a server is left for its next connection. -/
def World.Drained (w : World N) : Prop := ∀ s, (w.servers s).msg = .zero

/-- Of the commands for a server with this record no AUTH is refused, and behind a QUIT no AUTH,
PING or TELEPORT comes. -/
def Answerable (c : Crypto) (s : Q2Server) : List Command → Prop
  | [] => True
  | .auth cipher :: cmds => s.accepts c cipher = true ∧ Answerable c s cmds
  | .quit :: cmds => ∀ cmd ∈ cmds, cmd = .quit ∨ cmd.tells = true ∨ cmd.isInvite = true
  | _ :: cmds => Answerable c s cmds

/-- The commands that are heard in the next step are answerable. -/
def Answers (c : Crypto) : Move → World N → Prop
  | .poll _, _ => True
  | .serve env, w => ∀ p ∈ w.heard c env w.scan, Answerable c (w.judge env w.scan p.1) p.2

section Decidable

variable (c : Crypto) (s : Q2Server)

instance decideAnswerable : (cmds : List Command) → Decidable (Answerable c s cmds)
  | [] => inferInstanceAs (Decidable True)
  | .auth cipher :: cmds =>
    have := decideAnswerable cmds
    inferInstanceAs (Decidable (s.accepts c cipher = true ∧ Answerable c s cmds))
  | .quit :: cmds =>
    inferInstanceAs (Decidable (∀ cmd ∈ cmds, cmd = .quit ∨ cmd.tells = true ∨ cmd.isInvite = true))
  | .ping :: cmds | .print _ _ :: cmds | .teleport _ _ :: cmds | .invite _ _ :: cmds
  | .command _ :: cmds | .connect _ _ :: cmds | .playerUpdate _ _ :: cmds
  | .disconnect _ :: cmds | .playerList _ _ :: cmds | .map _ :: cmds | .other _ :: cmds =>
    decideAnswerable cmds

instance : (m : Move) → (w : World N) → Decidable (Answers c m w)
  | .poll _, _ => inferInstanceAs (Decidable True)
  | .serve env, w =>
    inferInstanceAs (Decidable (∀ p ∈ w.heard c env w.scan,
      Answerable c (w.judge env w.scan p.1) p.2))

end Decidable

/-- The events that are neither sent nor at either end of a connection. -/
def Event.isQuiet : Event → Bool
  | .sent _ _ _ | .bound _ _ | .closed _ => false
  | _ => true

/-- Quiet events leave a connection as it is. -/
theorem connection_quiet {l t : List Event} (hl : ∀ e ∈ l, e.isQuiet = true) (fd : Nat) :
    connection fd (l ++ t) = (connection fd t).map (l ++ ·) := by
  induction l with
  | nil => exact Option.map_id'.symm
  | cons e l ih =>
    have hstep : connection fd (e :: (l ++ t)) = (connection fd (l ++ t)).map (e :: ·) := by
      have he := hl e List.mem_cons_self
      cases e with
      | sent | bound | closed => cases he
      | _ => rfl
    rw [List.cons_append, hstep, ih fun e he ↦ hl e (List.mem_cons_of_mem _ he), Option.map_map]
    rfl

/-- What has been sent is in order, and no connection still waits for its first message. -/
structure Settled (c : Crypto) (t : List Event) : Prop where
  orderly : Orderly c t
  begun : ∀ fd es, connection fd t = some es → ∃ plain wire, .sent fd plain wire ∈ es

private theorem inOrder_of_maySend (c : Crypto) {later earlier : List Event} {fd : Nat}
    {plain : List UInt8} (h : ∀ es, connection fd earlier = some es →
      ∃ replies : List Reply, MaySend fd es replies ∧ replies.flatMap Reply.wire = plain) :
    InOrder c later fd plain earlier := by
  intro es hes
  obtain ⟨replies, hmay, hwire⟩ := h es hes
  exact .inl ⟨replies, ⟨hmay, hwire⟩, fun l hl ↦ hl.1.unique hmay (hl.2.trans hwire.symm)⟩

-- Nothing that happens later puts what has been sent out of order.
private theorem inOrder_cons {c : Crypto} {later earlier : List Event} {fd : Nat}
    {plain : List UInt8} (e : Event) (h : InOrder c later fd plain earlier) :
    InOrder c (e :: later) fd plain earlier := by
  intro es hes
  rcases h es hes with hreplies | ⟨hpeer, hbegun, hlast⟩
  · exact .inl hreplies
  · refine .inr ⟨hpeer, hbegun, ?_⟩
    rw [List.getLast?_cons, hlast]
    rfl

private theorem orderly_cons {c : Crypto} {e : Event} {t : List Event} (h : Orderly c t)
    (he : ∀ fd plain wire, e = .sent fd plain wire → InOrder c [] fd plain t) :
    Orderly c (e :: t) := by
  intro later fd plain wire earlier ht
  cases later with
  | nil =>
    obtain ⟨hsent, rfl⟩ := List.cons.inj ht
    exact he fd plain wire hsent
  | cons e' later =>
    obtain ⟨rfl, hrest⟩ := List.cons.inj ht
    exact inOrder_cons e (h later fd plain wire earlier hrest)

private theorem orderly_quiet {c : Crypto} {l t : List Event} (hl : ∀ e ∈ l, e.isQuiet = true)
    (h : Orderly c t) : Orderly c (l ++ t) := by
  induction l with
  | nil => exact h
  | cons e l ih =>
    refine orderly_cons (ih fun e he ↦ hl e (List.mem_cons_of_mem _ he)) ?_
    rintro fd plain wire rfl
    cases hl _ List.mem_cons_self

/-- Quiet events disturb nothing. -/
theorem settled_quiet {c : Crypto} {l t : List Event} (hl : ∀ e ∈ l, e.isQuiet = true)
    (h : Settled c t) : Settled c (l ++ t) := by
  refine ⟨orderly_quiet hl h.orderly, fun fd es hes ↦ ?_⟩
  rw [connection_quiet hl] at hes
  obtain ⟨es', hes', rfl⟩ := Option.map_eq_some_iff.mp hes
  obtain ⟨plain, wire, hmem⟩ := h.begun fd es' hes'
  exact ⟨plain, wire, List.mem_append_right l hmem⟩

/-- A connection that ends. -/
theorem settled_closed {c : Crypto} {t : List Event} (h : Settled c t) (g : Nat) :
    Settled c (.closed g :: t) := by
  refine ⟨orderly_cons h.orderly nofun, fun fd es hes ↦ ?_⟩
  unfold connection at hes
  split at hes
  · cases hes
  · obtain ⟨es', hes', rfl⟩ := Option.map_eq_some_iff.mp hes
    obtain ⟨plain, wire, hmem⟩ := h.begun fd es' hes'
    exact ⟨plain, wire, List.mem_cons_of_mem _ hmem⟩

/-- On a connection that has begun, messages other than the reply to a HELLO may be sent, and
TRUSTED behind a verification. -/
theorem settled_sent {c : Crypto} {t : List Event} (h : Settled c t) {fd : Nat}
    (wire : List UInt8) {replies : List Reply} (hbehind : ∀ r ∈ replies, r.opens = false)
    (htrusted : .trusted ∈ replies →
      ∀ es, connection fd t = some es → ∃ q2, .verified q2 fd ∈ es) :
    Settled c (.sent fd (replies.flatMap Reply.wire) wire :: t) := by
  refine ⟨orderly_cons h.orderly ?_, fun g es hes ↦ ?_⟩
  · rintro _ _ _ ⟨⟩
    refine inOrder_of_maySend c fun es hes ↦ ⟨replies, ⟨fun hno ↦ ?_, fun _ _ _ ↦ hbehind,
      fun hmem ↦ htrusted hmem es hes⟩, rfl⟩
    obtain ⟨p, x, hmem⟩ := h.begun fd es hes
    exact absurd hmem (hno p x)
  · obtain ⟨es', hes', rfl⟩ := Option.map_eq_some_iff.mp hes
    obtain ⟨p, x, hmem⟩ := h.begun g es' hes'
    exact ⟨p, x, List.mem_cons_of_mem _ hmem⟩

/-- The answer to a peer, behind which its socket is closed. -/
theorem settled_peer {c : Crypto} {t : List Event} (h : Settled c t) (fd : Nat)
    {plain : List UInt8} (wire : List UInt8) (hpeer : IsPeerList c plain) :
    Settled c (.closed fd :: .sent fd plain wire :: t) := by
  refine ⟨fun later g plain' wire' earlier ht ↦ ?_, fun g es hes ↦ ?_⟩
  · cases later with
    | nil => cases ht
    | cons e later =>
      obtain ⟨he, hsent⟩ := List.cons.inj ht
      cases later with
      | nil =>
        cases hsent
        rw [← he]
        exact fun es hes ↦ .inr ⟨hpeer, h.begun fd es hes, rfl⟩
      | cons e' later =>
        have hrest := (List.cons.inj hsent).2
        exact inOrder_cons e (inOrder_cons e' (h.orderly later g plain' wire' earlier hrest))
  · have hconnection : connection g (.closed fd :: .sent fd plain wire :: t) = if fd = g then none
        else ((connection g t).map (.sent fd plain wire :: ·)).map (.closed fd :: ·) := rfl
    rw [hconnection, Option.map_map] at hes
    split at hes
    · cases hes
    · obtain ⟨es', hes', rfl⟩ := Option.map_eq_some_iff.mp hes
      obtain ⟨p, x, hmem⟩ := h.begun g es' hes'
      exact ⟨p, x, List.mem_cons_of_mem _ (List.mem_cons_of_mem _ hmem)⟩

/-- A connection that begins. -/
theorem settled_bound {c : Crypto} {l t : List Event} (hl : ∀ e ∈ l, e.isQuiet = true)
    (h : Settled c t) {q2 fd : Nat} {r : Reply} (hr : r.opens = true) (wire : List UInt8) :
    Settled c (.sent fd r.wire wire :: (l ++ .bound q2 fd :: t)) := by
  have hconnection (g : Nat) : connection g (.bound q2 fd :: t) =
      if fd = g then some [] else (connection g t).map (.bound q2 fd :: ·) := rfl
  have hbound : Orderly c (.bound q2 fd :: t) := orderly_cons h.orderly nofun
  refine ⟨orderly_cons (orderly_quiet hl hbound) ?_, fun g es hes ↦ ?_⟩
  · rintro _ _ _ ⟨⟩
    refine inOrder_of_maySend c fun es hes ↦ ⟨[r], ⟨fun _ ↦ ⟨r, rfl, hr⟩, fun p x hmem ↦ ?_,
      fun hmem ↦ ?_⟩, List.append_nil _⟩
    · -- Since the HELLO nothing has been sent.
      rw [connection_quiet hl, hconnection, if_pos rfl] at hes
      cases hes
      rcases List.mem_append.mp hmem with hmem | hmem
      · cases hl _ hmem
      · cases hmem
    · rw [← List.mem_singleton.mp hmem] at hr
      cases hr
  · obtain ⟨es', hes', rfl⟩ := Option.map_eq_some_iff.mp hes
    by_cases hg : fd = g
    · rw [hg]
      exact ⟨_, _, List.mem_cons_self⟩
    · rw [connection_quiet hl, hconnection, if_neg hg, Option.map_map] at hes'
      obtain ⟨es'', hes'', rfl⟩ := Option.map_eq_some_iff.mp hes'
      obtain ⟨p, x, hmem⟩ := h.begun g es'' hes''
      exact ⟨p, x, List.mem_cons_of_mem _ (List.mem_append_right l (List.mem_cons_of_mem _ hmem))⟩

/-- Nothing waits in an output buffer, and what has been sent is in order. -/
structure World.Prompt (c : Crypto) (w : World N) : Prop where
  drained : w.Drained
  settled : Settled c w.trace

section Commands

variable {c : Crypto} {q2 : Fin N} {w w' : World N}

private theorem quiet_enciphering (w : World N) (q2 : Fin N) :
    ∀ e ∈ w.enciphering q2, e.isQuiet = true := by
  unfold World.enciphering
  split
  · cases (w.servers q2).connection.eCtx <;> simp [Event.isQuiet]
  · simp

private theorem prompt_posted (h : w.Prompt c) (replies : List Reply)
    (hbehind : ∀ r ∈ replies, r.opens = false) {plain wire : List UInt8}
    (hplain : (w.servers q2).msg = .zero → plain = replies.flatMap Reply.wire)
    (htrusted : .trusted ∈ replies → ∃ s, ∀ es, connection (w.wireOf q2) w.trace = some es →
      .verified s (w.wireOf q2) ∈ es) : (w.posted q2 plain wire).Prompt c := by
  refine ⟨fun s ↦ ?_, ?_⟩
  · by_cases hs : s = q2
    · rw [hs, World.posted_self]
      rfl
    · rw [World.posted_of_ne _ _ _ hs]
      exact h.drained s
  · rw [hplain (h.drained q2)]
    refine settled_sent (settled_quiet (quiet_enciphering w q2) h.settled) wire hbehind
      fun hmem es hes ↦ ?_
    rw [connection_quiet (quiet_enciphering w q2)] at hes
    obtain ⟨es', hes', rfl⟩ := Option.map_eq_some_iff.mp hes
    obtain ⟨s, hverified⟩ := htrusted hmem
    exact ⟨s, List.mem_append_right _ (hverified es' hes')⟩

private theorem prompt_updateServer (h : w.Prompt c) {f : Q2Server → Q2Server}
    (hf : ∀ s, (f s).msg = s.msg) : (w.updateServer q2 f).Prompt c := by
  refine ⟨fun s ↦ ?_, h.settled⟩
  by_cases hs : s = q2
  · rw [hs, World.updateServer_self, hf]
    exact h.drained q2
  · rw [World.updateServer_of_ne _ _ hs]
    exact h.drained s

private theorem prompt_format {α : Type} {x : M N α} {a : α}
    (hx : Keeps (fun w : World N ↦ (w.servers, w.trace)) x) (h : w.Prompt c)
    (hrun : x.run w = .ok a w') : w'.Prompt c ∧ w'.servers = w.servers := by
  have hkept := hx.ok hrun
  have hservers : w'.servers = w.servers := congrArg Prod.fst hkept
  have htrace : w'.trace = w.trace := congrArg Prod.snd hkept
  refine ⟨⟨fun s ↦ ?_, ?_⟩, hservers⟩
  · rw [hservers]
    exact h.drained s
  · rw [htrace]
    exact h.settled

private theorem prompt_tells {cmd : Command} (h : w.Prompt c) (ht : cmd.tells = true)
    (hrun : (exec c q2 cmd).run w = .ok () w') : w'.Prompt c := by
  rw [exec_tells ht hrun]
  exact prompt_updateServer h fun _ ↦ rfl

private theorem prompt_rebuild (hrun : removeServerSocket.run w = .ok () w') (h : w.Prompt c) :
    w'.Prompt c := by
  obtain ⟨htrace, _, _, hrecords⟩ := removeServerSocket_frame hrun
  refine ⟨fun s ↦ ?_, ?_⟩
  · rw [hrecords s]
    exact h.drained s
  · rw [htrace]
    exact h.settled

private theorem quiet_releasing (q2 : Fin N) (cell : Cell) (handle : Option Nat) :
    ∀ e ∈ World.releasing q2 cell handle, e.isQuiet = true := by
  cases handle <;> simp [World.releasing, Event.isQuiet]

private theorem prompt_close (h : w.Prompt c) (hrun : (closeConnection q2).run w = .ok () w') :
    w'.Prompt c := by
  rw [closeConnection_run] at hrun
  have hupdate : (w.updateServer q2 Q2Server.disconnect).Prompt c :=
    prompt_updateServer h fun _ ↦ rfl
  have hquiet := quiet_releasing q2
  exact prompt_rebuild hrun ⟨hupdate.drained, settled_closed (settled_quiet (hquiet _ _)
    (settled_quiet (hquiet _ _) (settled_quiet (hquiet _ _) h.settled))) _⟩

private theorem prompt_sayAll {message : List UInt8} (hmessage : (0 : UInt8) ∉ message)
    (h : w.Prompt c) (hrun : (sayAll c message q2).run w = .ok () w') : w'.Prompt c := by
  have hsay := sayAll_ok hrun
  split at hsay
  · obtain ⟨plain, rfl, hplain⟩ := hsay
    refine prompt_posted h [.sayAll message hmessage] (by simp [Reply.opens]) (fun hzero ↦ ?_)
      fun hmem ↦ ?_
    · rw [hplain hzero]
      exact (List.append_nil _).symm
    · cases List.mem_singleton.mp hmem
  · rw [hsay]
    exact h

private theorem prompt_invite {clientId : UInt8} {text : List UInt8} (h : w.Prompt c)
    (hrun : (invite c q2 clientId text).run w = .ok () w') : w'.Prompt c := by
  obtain ⟨s, w₁, h₁, hrun⟩ := run_bind_ok hrun
  obtain ⟨p, w₂, h₂, hrun⟩ := run_bind_ok hrun
  obtain ⟨t, w₃, h₃, hrun⟩ := run_bind_ok hrun
  obtain ⟨rfl, rfl⟩ := look_ok h₁
  obtain ⟨rfl, rfl⟩ := look_ok h₃
  have hprompt := (prompt_format (keeps_va (fun _ _ _ ↦ rfl) _) h h₂).1
  exact forM_ok (P := fun w ↦ w.Prompt c) (fun _ _ _ _ ↦ prompt_sayAll (nul_notMem_cstr _))
    hprompt hrun

private theorem prompt_sendBuffer {e : List UInt8} {m : MsgBuffer} (replies : List Reply)
    (h : w.Prompt c) (hc : (w.servers q2).connected = true)
    (hm : Written (w.servers q2).msg e m) (he : 0 < e.length)
    (hreplies : e = replies.flatMap Reply.wire)
    (hbehind : ∀ r ∈ replies, r.opens = false ∧ r ≠ .trusted)
    (hrun : (sendBuffer c q2).run (w.holding q2 m) = .ok () w') : w'.Prompt c := by
  obtain ⟨plain, rfl, hplain⟩ := sendBuffer_holding hm he hc hrun
  exact prompt_posted h replies (fun r hr ↦ (hbehind r hr).1)
    (fun hzero ↦ (hplain hzero).trans hreplies) fun hmem ↦ absurd rfl (hbehind _ hmem).2

private theorem prompt_ping (h : w.Prompt c) (hc : (w.servers q2).connected = true)
    (hrun : (pong c q2).run w = .ok () w') : w'.Prompt c := by
  obtain ⟨_, w₁, h₁, hrest⟩ := run_bind_ok hrun
  obtain ⟨m, hm, rfl⟩ := onOut_ok (appends_byte scmdPong) h₁
  obtain ⟨_, w₂, h₂, hsend⟩ := run_bind_ok hrest
  rw [modifyServer_ok h₂] at hsend
  let f (s : Q2Server) : Q2Server :=
    { s with connection := { s.connection with pingCount := s.connection.pingCount + 1 } }
  have hself : (w.updateServer q2 f).servers q2 = f (w.servers q2) := w.updateServer_self q2 f
  have hswap : (w.holding q2 m).updateServer q2 f = (w.updateServer q2 f).holding q2 m := by
    unfold World.holding
    rw [World.updateServer_updateServer, World.updateServer_updateServer]
    rfl
  have hsent : (sendBuffer c q2).run ((w.updateServer q2 f).holding q2 m) = .ok () w' := by
    rw [← hswap]
    exact hsend
  have hconnected : ((w.updateServer q2 f).servers q2).connected = true := by
    rw [hself]
    exact hc
  have hwritten : Written ((w.updateServer q2 f).servers q2).msg [scmdPong] m := by
    rw [hself]
    exact hm
  have hreplies : [scmdPong] = [Reply.pong].flatMap Reply.wire := by simp [Reply.wire]
  have hprompt : (w.updateServer q2 f).Prompt c := prompt_updateServer h fun _ ↦ rfl
  exact prompt_sendBuffer _ hprompt hconnected hwritten (by simp) hreplies
    (by simp [Reply.opens]) hsent

private theorem prompt_teleport {clientId : UInt8} {location : List UInt8} (h : w.Prompt c)
    (hc : (w.servers q2).connected = true) (hlocation : (0 : UInt8) ∉ location)
    (hrun : (teleport c q2 clientId location).run w = .ok () w') : w'.Prompt c := by
  -- A text for a client alone.
  have htext {text : CharPtr} {w₁ : World N} (h₁ : w₁.Prompt c ∧ w₁.servers = w.servers)
      (hstring : (0 : UInt8) ∉ text.deref w₁.vaStrings)
      (hrun : (do clientText q2 clientId printHigh text; sendBuffer c q2).run w₁ = .ok () w') :
      w'.Prompt c := by
    obtain ⟨_, w₂, h₂, hrun⟩ := run_bind_ok hrun
    obtain ⟨m, hm, rfl⟩ := clientText_ok h₂
    exact prompt_sendBuffer [.sayClient clientId printHigh _ hstring] h₁.1
      (by rw [h₁.2]; exact hc) hm (Nat.succ_pos _) (List.append_nil _).symm
      (by simp [Reply.opens]) hrun
  unfold teleport at hrun
  by_cases hl : location = []
  · rw [if_pos hl] at hrun
    obtain ⟨p, w₁, h₁, hrun⟩ := run_bind_ok hrun
    exact htext (prompt_format (keeps_buildTeleportServers fun _ _ _ ↦ rfl) h h₁)
      (nul_notMem_buildTeleportServers h₁) hrun
  · rw [if_neg hl] at hrun
    obtain ⟨found, w₁, h₁, hrun⟩ := run_bind_ok hrun
    obtain ⟨rfl, rfl⟩ := look_ok h₁
    split at hrun
    · next f _ =>
      obtain ⟨s, w₁, h₁, hrun⟩ := run_bind_ok hrun
      obtain ⟨rfl, rfl⟩ := look_ok h₁
      obtain ⟨reply, w₂, h₂, hrun⟩ := run_bind_ok hrun
      obtain ⟨stuff, w₃, h₃, hrun⟩ := run_bind_ok hrun
      obtain ⟨_, w₄, h₄, hrun⟩ := run_bind_ok hrun
      obtain ⟨line, w₅, h₅, hrun⟩ := run_bind_ok hrun
      obtain ⟨_, w₆, h₆, hrun⟩ := run_bind_ok hrun
      obtain ⟨hp₂, hs₂⟩ := prompt_format (keeps_va (fun _ _ _ ↦ rfl) _) h h₂
      obtain ⟨hp₃, hs₃⟩ := prompt_format (keeps_va (fun _ _ _ ↦ rfl) _) hp₂ h₃
      have hstuff := nul_notMem_va (nul_notMem_stuff clientId (w.servers f)) h₃
      have hreply := nul_notMem_kept (nul_notMem_stuff clientId (w.servers f))
        (nul_notMem_va (nul_notMem_sending (w.servers f)) h₂) h₃
      obtain ⟨m, hm, rfl⟩ := clientText_ok h₄
      obtain ⟨rfl, rfl⟩ := look_ok h₅
      obtain ⟨m', hm', rfl⟩ := onOut_ok
        (appends_bind (appends_byte scmdCommand) (appends_string _)) h₆
      rw [World.holding_holding] at hrun
      rw [World.holding_self] at hm'
      refine prompt_sendBuffer [.sayClient clientId printHigh _ hreply, .command _ hstuff] hp₃
        (by rw [hs₃, hs₂]; exact hc) (hm.trans hm') (Nat.succ_pos _) ?_
        (by simp [Reply.opens]) hrun
      simp only [Reply.wire, sayClientBytes, List.flatMap_cons, List.flatMap_nil, List.append_nil]
      rfl
    · obtain ⟨reply, w₁, h₁, hrun⟩ := run_bind_ok hrun
      exact htext (prompt_format (keeps_va (fun _ _ _ ↦ rfl) _) h h₁)
        (nul_notMem_va (nul_notMem_unlocated hlocation) h₁) hrun

private theorem prompt_auth {cipher : List UInt8} (hw : w.core.Wf) (h : w.Prompt c)
    (hc : (w.servers q2).connected = true) (ha : (w.servers q2).accepts c cipher = true)
    (hrun : (exec c q2 (.auth cipher)).run w = .ok () w') : w'.Prompt c := by
  obtain ⟨b, w₁, h₁, hrun⟩ := run_bind_ok hrun
  obtain ⟨hb, k, _, hw₁⟩ := checkAnswer_ok h₁
  rw [ha] at hb
  subst hb
  rw [if_pos rfl] at hw₁
  have hself : w₁.servers q2 = (w.servers q2).grant w.nextHandle := by
    rw [hw₁, World.granted_self]
    rfl
  have hprompt : w₁.Prompt c := by
    have hgrant : (w.updateServer q2 (Q2Server.grant w.nextHandle)).Prompt c :=
      prompt_updateServer h fun _ ↦ rfl
    rw [hw₁]
    refine ⟨hgrant.drained, ?_⟩
    exact settled_quiet (l := [_, _, _, _]) (by simp [Event.isQuiet]) h.settled
  obtain ⟨plain, rfl, hplain⟩ := post_ok (appends_byte scmdTrusted) Nat.one_pos
    (by rw [hself]; exact hc) hrun
  refine prompt_posted hprompt [.trusted] (by simp [Reply.opens]) (fun hzero ↦ ?_)
    fun _ ↦ ⟨q2, fun es hes ↦ ?_⟩
  · rw [hplain hzero]
    simp [Reply.wire]
  · -- The socket that is verified is the one in the slot of the server.
    have hwire : w₁.wireOf q2 = (w.servers q2).socket := by
      unfold World.wireOf
      rw [hself, hw₁]
      exact (hw.slot q2 hc).2
    rw [hwire] at hes ⊢
    rw [hw₁] at hes
    obtain ⟨es', _, rfl⟩ := Option.map_eq_some_iff.mp hes
    exact List.mem_cons_self

private theorem prompt_exec {cmd : Command} (hw : w.core.Wf) (h : w.Prompt c)
    (hc : (w.servers q2).connected = true)
    (ha : ∀ cipher, cmd = .auth cipher → (w.servers q2).accepts c cipher = true)
    (hstring : ∀ clientId location, cmd = .teleport clientId location → (0 : UInt8) ∉ location)
    (hrun : (exec c q2 cmd).run w = .ok () w') : w'.Prompt c := by
  cases cmd with
  | auth cipher => exact prompt_auth hw h hc (ha cipher rfl) hrun
  | quit => exact prompt_close h hrun
  | ping => exact prompt_ping h hc hrun
  | teleport clientId location => exact prompt_teleport h hc (hstring _ _ rfl) hrun
  | invite clientId text => exact prompt_invite h hrun
  | _ => exact prompt_tells h rfl hrun

private theorem prompt_execAll_closed {cmds : List Command}
    (hcmds : ∀ cmd ∈ cmds, cmd = .quit ∨ cmd.tells = true ∨ cmd.isInvite = true) (h : w.Prompt c)
    (hrun : (forM cmds (exec c q2)).run w = .ok () w') : w'.Prompt c := by
  refine forM_ok (P := fun w ↦ w.Prompt c) (fun cmd hmem w w₁ h h₁ ↦ ?_) h hrun
  rcases hcmds cmd hmem with rfl | ht | hi
  · exact prompt_close h h₁
  · exact prompt_tells h ht h₁
  · cases cmd with
    | invite clientId text => exact prompt_invite h h₁
    | _ => cases hi

-- A command that does not close the connection leaves the server connected, and the table in
-- agreement with the records.
private theorem connected_exec {cmd : Command} (hw : w.core.Wf)
    (hc : (w.servers q2).connected = true) (hop : cmd.sessionOp c (w.servers q2) ≠ some .close)
    (hrun : (exec c q2 cmd).run w = .ok () w') :
    w'.core.Wf ∧ (w'.servers q2).connected = true := by
  have hcore := core_exec hrun
  cases hs : cmd.sessionOp c (w.servers q2) with
  | none =>
    rw [hs] at hcore
    replace hcore : w'.core = w.core := hcore
    rw [connected_of_core hcore, hcore]
    exact ⟨hw, hc⟩
  | some op =>
    cases op with
    | close => exact absurd hs hop
    | grant =>
      rw [hs] at hcore
      replace hcore : w'.core = w.core.grant q2 := hcore
      have hrecord : w'.core.records q2 = { w.core.records q2 with trusted := true } := by
        rw [hcore, Core.grant, Core.log_records, Core.updateRecord_self]
      refine ⟨?_, (congrArg Record.connected hrecord).trans hc⟩
      rw [hcore]
      exact Core.wf_grant hw q2

private theorem prompt_execAll {s : Q2Server} {cmds : List Command} (hw : w.core.Wf)
    (h : w.Prompt c) (hc : (w.servers q2).connected = true)
    (hs : (w.servers q2).credentials = s.credentials) (hcmds : Answerable c s cmds)
    (hstrings : ∀ clientId location, .teleport clientId location ∈ cmds → (0 : UInt8) ∉ location)
    (hrun : (forM cmds (exec c q2)).run w = .ok () w') : w'.Prompt c := by
  induction cmds generalizing w with
  | nil =>
    cases hrun
    exact h
  | cons cmd cmds ih =>
    rw [List.forM_cons] at hrun
    obtain ⟨_, w₁, h₁, hbehind⟩ := run_bind_ok hrun
    have hs₁ : (w₁.servers q2).credentials = s.credentials :=
      ((keeps_credentials_exec c q2 q2 cmd).ok h₁).trans hs
    have hopen (hop : cmd.sessionOp c (w.servers q2) ≠ some .close)
        (ha : ∀ cipher, cmd = .auth cipher → (w.servers q2).accepts c cipher = true)
        (hrest : Answerable c s cmds) : w'.Prompt c := by
      obtain ⟨hw₁, hc₁⟩ := connected_exec hw hc hop h₁
      have hstring (clientId : UInt8) (location : List UInt8)
          (he : cmd = .teleport clientId location) : (0 : UInt8) ∉ location :=
        hstrings clientId location (he ▸ List.mem_cons_self)
      exact ih hw₁ (prompt_exec hw h hc ha hstring h₁) hc₁ hs₁ hrest
        (fun _ _ hmem ↦ hstrings _ _ (List.mem_cons_of_mem cmd hmem)) hbehind
    cases cmd with
    | auth cipher =>
      have ha : (w.servers q2).accepts c cipher = true := by
        rw [accepts_congr c hs]
        exact hcmds.1
      refine hopen ?_ ?_ hcmds.2
      · simp [Command.sessionOp, ha]
      · intro _ he
        cases he
        exact ha
    | quit => exact prompt_execAll_closed hcmds (prompt_close h h₁) hbehind
    | _ => exact hopen (by simp [Command.sessionOp]) (by simp) hcmds

end Commands

section Turns

variable {c : Crypto} {env : Answer} {i : Nat} {w w' : World N}

private theorem prompt_log {l : List Event} (hl : ∀ e ∈ l, e.isQuiet = true) (h : w.Prompt c)
    (m : MsgBuffer) : World.Prompt c { w with msg := m, trace := l ++ w.trace } :=
  ⟨h.drained, settled_quiet hl h.settled⟩

private theorem quiet_deciphering (w : World N) (q2 : Fin N) :
    ∀ e ∈ w.deciphering q2, e.isQuiet = true := by
  rcases w.uses_deciphering q2 with he | ⟨_, _, _, he⟩
  · simp [he]
  · simp [he, Event.isQuiet]

private theorem prompt_receiving (h : w.Prompt c) (recv : Recv) (i : Nat) (m : MsgBuffer) :
    World.Prompt c { w.receiving recv i with msg := m } :=
  prompt_log (l := [.received (w.sockets i).fd]) (by simp [Event.isQuiet]) h m

private theorem quiet_welcoming (env : HelloEnv) (h : Hello) (q2 : Fin N) (n : Nat)
    (s : Q2Server) : ∀ e ∈ s.welcoming env h q2 n, e.isQuiet = true := by
  intro e he
  rcases mem_welcoming he with ⟨m, rfl | rfl⟩ | ⟨rfl, _⟩
  · rfl
  · rfl
  · rfl

private theorem prompt_registerHello {q2 : Fin N} {h : Hello} {found : Option (Fin N)}
    (hw : w.Prompt c) (hkey : w.serverOfKey h.key = some q2)
    (hrun : (registerHello c env.hello i h).run w = .ok found w') : w'.Prompt c := by
  obtain ⟨_, hsign, hfits⟩ := registerHello_signed hkey hrun
  obtain ⟨r, hopens, hwire⟩ := reply_opens hsign hfits
  obtain ⟨_, _, plain, rfl, hplain⟩ := registerHello_ok hkey hrun
  refine ⟨fun s ↦ ?_, ?_⟩
  · by_cases hs : s = q2
    · rw [hs, World.posted_self]
      rfl
    · rw [World.posted_of_ne _ _ _ hs, World.replying_of_ne _ _ _ _ hs]
      exact hw.drained s
  · rw [hplain (hw.drained q2), ← hwire]
    unfold World.posted
    rw [World.replying_wireOf, World.replying_trace, ← List.append_assoc]
    refine settled_bound (fun e he ↦ ?_) hw.settled hopens _
    rcases List.mem_append.mp he with he | he
    · exact quiet_enciphering _ q2 e he
    · exact quiet_welcoming _ _ _ _ _ e he

private theorem prompt_turnAway (h : w.Prompt c) (hrun : (turnAway i).run w = .ok () w') :
    w'.Prompt c := by
  rw [turnAway_run] at hrun
  exact prompt_rebuild hrun ⟨h.drained, settled_closed h.settled _⟩

private theorem prompt_hangUp {q2 : Fin N} (h : w.Prompt c)
    (hrun : (hangUp (some q2) i).run w = .ok () w') : w'.Prompt c := by
  rw [hangUp_run] at hrun
  have hdown : (w.updateServer q2 Q2Server.drop).Prompt c := prompt_updateServer h fun _ ↦ rfl
  exact prompt_rebuild hrun ⟨hdown.drained, settled_closed hdown.settled _⟩

private theorem prompt_peer {request : UInt8} (h : w.Prompt c)
    (hrun : (do answerPeer c i request; removeServerSocket).run w = .ok () w') :
    w'.Prompt c := by
  obtain ⟨_, w₁, h₁, hrun⟩ := run_bind_ok hrun
  apply prompt_rebuild hrun
  rcases answerPeer_ok h₁ with ⟨_, rfl⟩ | ⟨_, servers, m, hlist, rfl⟩
  · exact h
  · exact ⟨h.drained, settled_peer h.settled _ _ ⟨servers, m, hlist, rfl⟩⟩

private theorem prompt_turn (hturn : Turn c env i w w') (hw : w.core.Wf) (hi : i < w.socketCount)
    (hg : ∀ p ∈ w.heard c env i, Answerable c (w.judge env i p.1) p.2) (h : w.Prompt c) :
    w'.Prompt c := by
  have hreceived (m : MsgBuffer) := prompt_receiving h env.recv i m
  have hcore (m : MsgBuffer) : World.core { w.receiving env.recv i with msg := m } = w.core :=
    core_receiving w env.recv i
  cases hturn with
  | idle same =>
    rw [same]
    exact h
  | accept fd _ _ _ run =>
    cases run
    exact ⟨h.drained, settled_quiet (l := [.accepted fd]) (by simp [Event.isQuiet]) h.settled⟩
  | hangUp q2 _ _ _ run => exact prompt_hangUp (hreceived _) run
  | message q2 cmds m slot owner heard run =>
    have hcmds := hg (q2, cmds) heard
    rw [judge_of_owner owner] at hcmds
    refine prompt_execAll ?_ (prompt_log (quiet_deciphering w q2) (hreceived m) m) ?_ rfl hcmds
      (fun _ _ ↦ nul_notMem_heard heard) run
    · rw [core_deciphering w q2 { w.receiving env.recv i with msg := m }, hcore]
      exact hw
    · exact hw.connected_of_index (getServer_some owner) (slot.inTable hw hi).1
  | peer request m _ _ _ run => exact prompt_peer (hreceived m) run
  | stranger m _ _ _ run => exact prompt_turnAway (hreceived m) run
  | refused q2 hello m w₁ _ _ greeting _ register run =>
    exact prompt_turnAway
      (prompt_registerHello (hreceived m) (greeting_some greeting).2 register) run
  | hello q2 hello m w₁ cmds m' slot owner greeting answers heard register run =>
    have hkey := (greeting_some greeting).2
    have hprompt := prompt_registerHello (hreceived m) hkey register
    have hcmds := hg (q2, cmds) heard
    rw [judge_of_greeting greeting] at hcmds
    have hcore₁ : World.core { w₁ with msg := m', trace := w₁.deciphering q2 ++ w₁.trace } =
        w.core.bind q2 i hello.port hello.maxClients := by
      rw [← core_register greeting register]
      exact core_deciphering w₁ q2 { w₁ with msg := m' }
    refine prompt_execAll ?_ (prompt_log (quiet_deciphering w₁ q2) hprompt m') ?_
      (congrArg Reception.credentials (reception_register greeting answers register)) hcmds
      (fun _ _ ↦ nul_notMem_heard heard) run
    · rw [hcore₁]
      exact Core.wf_bind hw q2 _ _ (slot.inTable hw hi) (getServer_none owner)
    · have hc : ((w.core.bind q2 i hello.port hello.maxClients).records q2).connected = true :=
        Core.bind_connected ..
      rw [← hcore₁] at hc
      exact hc

end Turns

private theorem prompt_initial (c : Crypto) (rows : Fin N → Row) (listener : Nat)
    (junk : Nat → PollFd) :
    (initial rows listener junk).Prompt c := by
  refine ⟨fun _ ↦ rfl, fun later _ _ _ _ h ↦ ?_, nofun⟩
  cases later <;> cases h

private theorem prompt_step {c : Crypto} {m : Move} {w w' : World N} (hs : step c m w = some w')
    (hw : w.core.Wf) (hg : Answers c m w) (h : w.Prompt c) : w'.Prompt c := by
  cases m with
  | poll ready =>
    rw [step_poll hs]
    exact ⟨h.drained, settled_quiet (l := [.polled ready]) (by simp [Event.isQuiet]) h.settled⟩
  | serve env =>
    obtain ⟨⟨hscan, _⟩, _⟩ := step_serve hs
    obtain ⟨w₁, hturn, rfl⟩ := step_turn hs
    have h₁ := prompt_turn hturn hw hscan hg h
    exact ⟨h₁.drained, h₁.settled⟩

/-- In runs in which no AUTH is refused, and no AUTH, PING or TELEPORT comes behind a QUIT in its
message, every connection begins with the reply to its HELLO, TRUSTED is sent on it behind its
own verification only, and no byte is left for the next connection. -/
theorem replies_in_order (c : Crypto) (rows : Fin N → Row) (listener : Nat) (junk : Nat → PollFd)
    (ms : List Move) (w : World N)
    (hrun : Run (step c) (Answers c) ms (initial rows listener junk) w) :
    Orderly c w.trace ∧ w.Drained := by
  have hinv := hrun.invariant (I := fun w ↦ w.core.Wf ∧ w.Prompt c)
    (fun m w w' hg hs hw ↦ by
      refine ⟨?_, prompt_step hs hw.1 hg hw.2⟩
      rw [core_step hs]
      exact Core.wf_run hw.1 (effect_valid hs hw.1))
    ⟨wf_initial rows listener junk, prompt_initial c rows listener junk⟩
  exact ⟨hinv.2.settled.orderly, hinv.2.drained⟩

/-- A server is answered, verified and told so. -/
theorem replies_in_order_sample :
    ∃ w : World 1, .sent 4 [scmdTrusted] [scmdTrusted] ∈ w.trace ∧ Orderly Crypto.clear w.trace ∧
      w.Drained := by
  have h : (follow (step Crypto.clear) (Answers Crypto.clear) sampleSession sampleStart).any
      (fun w ↦ w.trace.contains (.sent 4 [scmdTrusted] [scmdTrusted])) = true := by decide +kernel
  obtain ⟨w, hrun, hw⟩ := Run.exists_of_follow h
  exact ⟨w, List.contains_iff_mem.mp hw, replies_in_order _ _ _ _ _ w hrun⟩

private theorem head_of_opens {r : Reply} (h : r.opens = true) :
    r.wire.head? ≠ some scmdTrusted := by
  cases r with
  | helloAck => simp [Reply.wire, scmdHelloAck, scmdTrusted]
  | error => simp [Reply.wire, errorBytes, scmdError, scmdTrusted]
  | _ => cases h

-- An AUTH is refused, and the server says HELLO once more.
private def sampleRefused : List Move :=
  [.poll [3], .accepting 4, .skip, .poll [4], .skip, .receiving sampleHello sampleHello_length_le,
    .poll [4], .skip, .receiving [13, 0, 0] (by decide), .poll [3], .accepting 5,
    .receiving sampleHello sampleHello_length_le]

-- What has been sent last begins with TRUSTED, and nothing has been sent before on its connection.
private def beginsTrusted : List Event → Bool
  | .sent fd plain _ :: t => decide (plain.head? = some scmdTrusted) &&
    (connection fd t).any fun es ↦ es.all fun e ↦ !e.isSent
  | _ => false

/-- The acknowledgement of an AUTH that was refused is the first thing that is sent on the next
connection. -/
theorem refusal_acknowledged :
    ¬ ∀ (ms : List Move) (w : World 1), Run (step Crypto.clear) Unguarded ms sampleStart w →
      Orderly Crypto.clear w.trace ∧ w.Drained := by
  have h : (follow (step Crypto.clear) Unguarded sampleRefused sampleStart).any
      (fun w ↦ beginsTrusted w.trace) = true := by decide +kernel
  obtain ⟨w, hrun, hw⟩ := Run.exists_of_follow h
  intro hall
  have horder := (hall _ w hrun).1
  unfold beginsTrusted at hw
  split at hw
  · next fd plain wire t htrace =>
    rw [Bool.and_eq_true, Option.any_eq_true] at hw
    obtain ⟨hhead, es, hes, hquiet⟩ := hw
    have hno : ∀ plain wire, .sent fd plain wire ∉ es := fun p x hmem ↦ by
      have := List.all_eq_true.mp hquiet _ hmem
      cases this
    rcases horder [] fd plain wire t htrace es hes with
      ⟨replies, ⟨hmay, hplain⟩, _⟩ | ⟨_, _, hlast⟩
    · obtain ⟨r, rfl, hopens⟩ := hmay.first hno
      rw [← hplain, List.flatMap_singleton] at hhead
      exact head_of_opens hopens (of_decide_eq_true hhead)
    · cases hlast
  · cases hw

end Q2Admin
