import Q2Admin.Session.Speech
import Q2Admin.Loop.Trust

/-!
# The cipher is transparent

Library `Q2Admin.Loop`. Source `server.c:317–343`, `parse.c:7–19` and `crypto.c:94–146`. Two
systems with different ciphers, whose clients encipher what they send as they are expected to, do
the same: `cipher_transparent`. The rest of a HELLO by which a server that is still trusted asks
for encryption would be deciphered although it has not been enciphered; no such HELLO comes here.
-/

namespace Q2Admin

open Exec

variable {N : Nat}

/-- Deciphering takes back enciphering. -/
def Crypto.Inverts (c : Crypto) : Prop :=
  ∀ key iv plain, c.aesDecrypt key iv (c.aesEncrypt key iv plain) = plain

/-- What `recv` stores of a message that has been enciphered; the end of a connection remains
one. -/
def Packet.sealed (c : Crypto) (s : Q2Server) (p : Packet) : Packet :=
  if p.bytes = [] then p
  else
    ⟨(c.aesEncrypt s.connection.aeskey s.connection.iv p.bytes).take msgSize, by
      rw [List.length_take]
      exact Nat.min_le_left _ _⟩

/-- What `recv` answers to a client that enciphers. -/
def Recv.sealed (c : Crypto) (s : Q2Server) : Recv → Recv
  | failed => failed
  | packet p => packet (p.sealed c s)

/-- What arrives from the owner of the slot that is served next, if it enciphers its messages as
soon as it is expected to. -/
def Answer.sealed (c : Crypto) (w : World N) (env : Answer) : Answer :=
  match w.getServer w.scan with
  | some q2 =>
    if (w.servers q2).secure then { env with recv := env.recv.sealed c (w.servers q2) } else env
  | none => env

/-- A step whose client enciphers. -/
def Move.sealed (c : Crypto) (w : World N) : Move → Move
  | .poll ready => .poll ready
  | .serve env => .serve (env.sealed c w)

/-- The system with clients that encipher; the labels have the messages as they were. -/
def stepSealed (c : Crypto) (m : Move) (w : World N) : Option (World N) := step c (m.sealed c w) w

/-- The ciphertext of the message fits into the buffer. -/
def Recv.fits : Recv → Bool
  | failed => true
  | packet p => 16 * (p.bytes.length / 16 + 1) ≤ msgSize

/-- A message that is to be enciphered fits into the buffer, and no HELLO asks for encryption when
its server is trusted from before, since the rest of its message would be deciphered. -/
def Move.sealable (w : World N) : Move → Bool
  | .poll _ => true
  | .serve env =>
    match w.getServer w.scan with
    | some q2 => !(w.servers q2).secure || env.recv.fits
    | none =>
      match w.greeting env w.scan with
      | some (q2, h, _) => !((w.servers q2).trusted && h.encrypted ≠ 0)
      | none => true

private theorem Packet.sealed_of_empty (c : Crypto) (s : Q2Server) {p : Packet}
    (hp : p.bytes = []) :
    p.sealed c s = p := by
  unfold Packet.sealed
  rw [if_pos hp]

private theorem Packet.sealed_bytes (c : Crypto) (s : Q2Server) {p : Packet} (hp : p.bytes ≠ [])
    (hfits : (Recv.packet p).fits = true) :
    (p.sealed c s).bytes = c.aesEncrypt s.connection.aeskey s.connection.iv p.bytes := by
  have hle : 16 * (p.bytes.length / 16 + 1) ≤ msgSize := of_decide_eq_true hfits
  unfold Packet.sealed
  rw [if_neg hp]
  apply List.take_of_length_le
  rw [c.aesEncrypt_length]
  exact hle

/-- What is left of an enciphered message when it has been deciphered: nothing shows the cipher. -/
theorem plainMessage_sealed {c : Crypto} (hc : c.Inverts) {s : Q2Server} (hs : s.secure = true)
    {p : Packet} (hp : p.bytes ≠ []) (hfits : (Recv.packet p).fits = true) :
    s.plainMessage c (Recv.packet (p.sealed c s)).buffer =
      ⟨p.bytes.length, 0, p.bytes, 16 * (p.bytes.length / 16 + 1)⟩ := by
  have hle : 16 * (p.bytes.length / 16 + 1) ≤ msgSize := of_decide_eq_true hfits
  have hbuffer : (Recv.packet (p.sealed c s)).buffer =
      .received (c.aesEncrypt s.connection.aeskey s.connection.iv p.bytes) :=
    congrArg MsgBuffer.received (Packet.sealed_bytes c s hp hfits)
  have hcontents (bs : List UInt8) : (MsgBuffer.received bs).contents = bs :=
    MsgBuffer.contents_ofBytes bs
  unfold Q2Server.plainMessage
  rw [if_pos hs, hbuffer, hcontents]
  unfold MsgBuffer.decrypted MsgBuffer.received
  dsimp only
  rw [c.aesEncrypt_length, if_pos hle, if_pos hle, hc, Nat.zero_max]

/-- A message is deciphered where there is a context for it. -/
theorem decryptMessage_run (c : Crypto) {q2 : Fin N} {w : World N}
    (hctx : (w.servers q2).secure = true → (w.servers q2).connection.dCtx ≠ none) :
    (decryptMessage c q2).run w = .ok () { w with
      msg := (w.servers q2).plainMessage c w.msg
      trace := w.deciphering q2 ++ w.trace } := by
  have hserver : (server q2).run w = .ok (w.servers q2) w := rfl
  unfold decryptMessage
  rw [run_bind_of_ok hserver]
  unfold Q2Server.plainMessage World.deciphering
  cases hs : (w.servers q2).secure with
  | false => rfl
  | true =>
    obtain ⟨d, hd⟩ := Option.ne_none_iff_exists'.mp (hctx hs)
    have hmsg : (look World.msg).run w = .ok w.msg w := rfl
    have hdecipher : (symmetricDecrypt c q2 w.msg).run w =
        .ok (if w.msg.length ≤ msgSize then
          c.aesDecrypt (w.servers q2).connection.aeskey (w.servers q2).connection.iv w.msg.contents
          else []) { w with trace := .used q2 .dCtx d :: w.trace } := by
      unfold symmetricDecrypt
      rw [run_bind_of_ok hserver, hd]
      by_cases hl : w.msg.length ≤ msgSize
      · rw [if_pos hl, if_pos hl]
        rfl
      · rw [if_neg hl, if_neg hl]
        rfl
    rw [if_pos rfl, if_pos rfl, if_neg (by simp), run_bind_of_ok hmsg,
      run_bind_of_ok hdecipher, hd]
    rfl

section Steps

variable {c c' : Crypto} {w w' v : World N} {q2 : Fin N} {i : Nat}

/-- A message from the owner of a slot: when both ciphers leave the same text of it, the same
happens. -/
theorem Crypto.Akin.message (h : c.Akin c') {m' : MsgBuffer} {t : List Event}
    (ht : t.map Event.spoken = w.trace.map Event.spoken)
    (hplain : (w.servers q2).plainMessage c' m' = (w.servers q2).plainMessage c w.msg)
    (hrun : (Q2Admin.parseMessage c q2).run w = .ok () v) :
    ∃ v', (Q2Admin.parseMessage c' q2).run { w with msg := m', trace := t } = .ok () v' ∧
      SameSpeech v v' := by
  obtain ⟨_, w₁, hdecrypt, hloop⟩ := run_bind_ok hrun
  obtain ⟨hctx, rfl⟩ := decryptMessage_ok hdecrypt
  have hdecrypt' := decryptMessage_run c' (w := { w with msg := m', trace := t }) hctx
  have hsame : SameSpeech
      { w with
        msg := (w.servers q2).plainMessage c w.msg
        trace := w.deciphering q2 ++ w.trace }
      { w with
        msg := (w.servers q2).plainMessage c' m'
        trace := w.deciphering q2 ++ t } := by
    refine ⟨w.deciphering q2 ++ t, by rw [hplain], ?_⟩
    rw [List.map_append, List.map_append, ht]
  have hout := h.parseLoop q2 parseRounds _ _ hsame
  rw [hloop] at hout
  obtain ⟨_, v', hrun', rfl, hv⟩ := hout.ok
  refine ⟨v', ?_, hv⟩
  unfold Q2Admin.parseMessage
  rw [run_bind_of_ok hdecrypt']
  exact hrun'

-- What `recv` answers to a client that enciphers: the end of the connection, or something of which
-- the same message is left.
private theorem sealed_recv (hc : c.Inverts) (hc' : c'.Inverts) {s : Q2Server}
    (hs : s.secure = true) {recv : Recv} (hfits : recv.fits = true) :
    (recv.sealed c' s = recv.sealed c s ∧ (recv.sealed c s).buffer.length = 0) ∨
      ((recv.sealed c' s).buffer.length ≠ 0 ∧ (recv.sealed c s).buffer.length ≠ 0 ∧
        s.plainMessage c' (recv.sealed c' s).buffer =
          s.plainMessage c (recv.sealed c s).buffer) := by
  cases recv with
  | failed =>
    have hlength : (0xffffffffffffffff : Nat) ≠ 0 := by decide
    refine .inr ⟨hlength, hlength, ?_⟩
    unfold Q2Server.plainMessage
    rw [if_pos hs, if_pos hs]
    rfl
  | packet p =>
    by_cases hp : p.bytes = []
    · have hempty (c : Crypto) : (Recv.packet p).sealed c s = .packet p :=
        congrArg Recv.packet (Packet.sealed_of_empty c s hp)
      rw [hempty, hempty]
      exact .inl ⟨rfl, congrArg List.length hp⟩
    · have hlength (c : Crypto) : ((Recv.packet p).sealed c s).buffer.length ≠ 0 := by
        change (p.sealed c s).bytes.length ≠ 0
        rw [Packet.sealed_bytes c s hp hfits, c.aesEncrypt_length]
        omega
      exact .inr ⟨hlength c', hlength c,
        (plainMessage_sealed hc' hs hp hfits).trans (plainMessage_sealed hc hs hp hfits).symm⟩

private theorem speech_hangUp (owner : Option (Fin N)) (i : Nat) :
    Coupled SameSpeech Eq (hangUp owner i) (hangUp owner i) := by
  cases owner with
  | none => exact coupled_throw _
  | some q2 =>
    exact coupled_bind_eq (detached_modifyServer q2 _).speech fun _ ↦
      coupled_bind_eq (talks_look fun _ _ _ ↦ rfl).speech fun _ ↦
        coupled_bind_eq (speech_logEvent rfl) fun _ ↦ detached_removeServerSocket.speech

-- A HELLO whose server is not trusted from before leads to a message that is not deciphered.
private theorem greeted_open {env : Answer} (hclient : w.Client w.scan)
    (howner : w.getServer w.scan = none) (hs : (Move.serve env).sealable w = true) {hello : Hello}
    {m : MsgBuffer} (hread : readFirst.run env.recv.buffer = .ok (.hello hello) m)
    (hkey : w.serverOfKey hello.key = some q2) :
    ((w.servers q2).greeted env.hello hello).secure = false := by
  have hgreeting : w.greeting env w.scan = some (q2, hello, m) := by
    unfold World.greeting
    rw [if_pos ⟨hclient, howner⟩, hread]
    dsimp only
    rw [hkey]
    rfl
  unfold Move.sealable at hs
  dsimp only at hs
  rw [howner, hgreeting] at hs
  rw [Bool.not_eq_true', Bool.and_comm] at hs
  exact hs

private theorem sealed_answer (hc : c.Inverts) (hc' : c'.Inverts)
    (howner : w.getServer w.scan = some q2) {env : Answer}
    (hs : (Move.serve env).sealable w = true) :
    ((env.sealed c' w).recv = (env.sealed c w).recv ∧
        (env.sealed c w).recv.buffer.length = 0) ∨
      ((env.sealed c' w).recv.buffer.length ≠ 0 ∧ (env.sealed c w).recv.buffer.length ≠ 0 ∧
        (w.servers q2).plainMessage c' (env.sealed c' w).recv.buffer =
          (w.servers q2).plainMessage c (env.sealed c w).recv.buffer) := by
  have hrecv (c : Crypto) : (env.sealed c w).recv =
      if (w.servers q2).secure then env.recv.sealed c (w.servers q2) else env.recv := by
    unfold Answer.sealed
    rw [howner]
    dsimp only
    split <;> rfl
  rw [hrecv, hrecv]
  cases hsecure : (w.servers q2).secure with
  | true =>
    unfold Move.sealable at hs
    dsimp only at hs
    rw [howner] at hs
    dsimp only at hs
    rw [hsecure] at hs
    exact sealed_recv hc hc' hsecure hs
  | false =>
    rw [if_neg Bool.false_ne_true, if_neg Bool.false_ne_true]
    by_cases hl : env.recv.buffer.length = 0
    · exact .inl ⟨rfl, hl⟩
    · refine .inr ⟨hl, hl, ?_⟩
      unfold Q2Server.plainMessage
      rw [hsecure, if_neg Bool.false_ne_true, if_neg Bool.false_ne_true]

private theorem Crypto.Akin.firstMessage (h : c.Akin c') {t : List Event}
    (ht : t.map Event.spoken = w.trace.map Event.spoken) {env : Answer}
    (hclient : w.Client w.scan) (howner : w.getServer w.scan = none)
    (hs : (Move.serve env).sealable w = true) :
    Outcomes SameSpeech Eq
      ((Q2Admin.firstMessage c env.hello w.scan).run (w.receiving env.recv w.scan))
      ((Q2Admin.firstMessage c' env.hello w.scan).run
        (World.receiving { w with trace := t } env.recv w.scan)) := by
  have hsame : SameSpeech (w.receiving env.recv w.scan)
      (World.receiving { w with trace := t } env.recv w.scan) :=
    ⟨_, rfl, congrArg (List.cons (Event.received _)) ht⟩
  rw [firstMessage_eq, firstMessage_eq]
  refine (speech_onMsg readFirst _ _ hsame).bind fun first _ w₁ w₁' hread heq hw₁ ↦ ?_
  obtain rfl := heq
  refine h.actFirst hw₁ fun hello q2 hfirst hkey _ ↦ ?_
  subst hfirst
  unfold onMsg at hread
  rw [run_zoom] at hread
  cases hr : readFirst.run (inMsg.get (w.receiving env.recv w.scan)) with
  | error e m =>
    rw [hr] at hread
    cases hread
  | ok first m =>
    rw [hr] at hread
    cases hread
    exact greeted_open hclient howner hs hr hkey

private theorem Crypto.Akin.serveClient (h : c.Akin c') (hc : c.Inverts) (hc' : c'.Inverts)
    {t : List Event} (ht : t.map Event.spoken = w.trace.map Event.spoken) {env : Answer}
    (hclient : w.Client w.scan) (hs : (Move.serve env).sealable w = true)
    (hrun : (Q2Admin.serveClient c (env.sealed c w).recv env.hello w.scan).run w = .ok () v) :
    ∃ v', (Q2Admin.serveClient c' (env.sealed c' w).recv env.hello w.scan).run
      { w with trace := t } = .ok () v' ∧ SameSpeech v v' := by
  have hreceived (fd : Nat) : (Event.received fd :: t).map Event.spoken =
      (Event.received fd :: w.trace).map Event.spoken := congrArg (List.cons _) ht
  have howner' : World.getServer { w with trace := t } w.scan = w.getServer w.scan := rfl
  rw [serveClient_run] at hrun ⊢
  rw [howner']
  cases howner : w.getServer w.scan with
  | some q2 =>
    rw [howner] at hrun
    rcases sealed_answer hc hc' howner hs with ⟨hsame, hl⟩ | ⟨hl', hl, hplain⟩
    · rw [if_pos hl] at hrun
      rw [hsame, if_pos hl]
      have hout := speech_hangUp (some q2) w.scan (w.receiving (env.sealed c w).recv w.scan)
        (World.receiving { w with trace := t } (env.sealed c w).recv w.scan)
        ⟨_, rfl, hreceived _⟩
      rw [hrun] at hout
      obtain ⟨_, v', hrun', rfl, hv⟩ := hout.ok
      exact ⟨v', hrun', hv⟩
    · rw [if_neg hl] at hrun
      rw [if_neg hl']
      exact h.message (w := w.receiving (env.sealed c w).recv w.scan) (hreceived _) hplain hrun
  | none =>
    have hrecv (c : Crypto) : env.sealed c w = env := by
      unfold Answer.sealed
      rw [howner]
    rw [hrecv, howner] at hrun
    rw [hrecv]
    by_cases hl : env.recv.buffer.length = 0
    · rw [if_pos hl] at hrun
      cases hrun
    · rw [if_neg hl] at hrun ⊢
      have hout := h.firstMessage ht hclient howner hs
      dsimp only at hrun
      rw [hrun] at hout
      obtain ⟨_, v', hrun', rfl, hv⟩ := hout.ok
      exact ⟨v', hrun', hv⟩

private theorem isOpen_spoken (fd : Nat) (t : List Event) :
    isOpen fd (t.map Event.spoken) = isOpen fd t := by
  induction t with
  | nil => rfl
  | cons e t ih =>
    rw [List.map_cons]
    cases e <;> simp only [Event.spoken, isOpen, ih]

private theorem SameSpeech.fresh (hw : SameSpeech w w') (env : Answer) :
    env.fresh w' = env.fresh w := by
  obtain ⟨t, rfl, ht⟩ := hw
  have hopen (fd : Nat) : isOpen fd t = isOpen fd w.trace := by
    rw [← isOpen_spoken fd t, ht, isOpen_spoken]
  unfold Answer.fresh
  cases env.accept with
  | none => rfl
  | some fd =>
    dsimp only
    rw [hopen]

private theorem sealed_rest (c : Crypto) (w : World N) (env : Answer) :
    (env.sealed c w).accept = env.accept ∧ (env.sealed c w).hello = env.hello := by
  unfold Answer.sealed
  split
  · split <;> exact ⟨rfl, rfl⟩
  · exact ⟨rfl, rfl⟩

private theorem speech_acceptClient (accept : Option Nat) :
    Coupled SameSpeech Eq (acceptClient accept : M N Unit) (acceptClient accept) := by
  cases accept with
  | none => exact coupled_pure rfl
  | some fd =>
    have hadd : Detached (addServerSocket fd : M N Unit) :=
      detached_modify (fun _ ↦ rfl) fun _ _ _ ↦ rfl
    exact coupled_bind_eq (speech_logEvent rfl) fun _ ↦ hadd.speech

private theorem Crypto.Akin.serveSlot (h : c.Akin c') (hc : c.Inverts) (hc' : c'.Inverts)
    {t : List Event} (ht : t.map Event.spoken = w.trace.map Event.spoken) {env : Answer}
    (hs : (Move.serve env).sealable w = true)
    (hrun : (Q2Admin.serveSlot c (env.sealed c w) w.scan).run w = .ok () v) :
    ∃ v', (Q2Admin.serveSlot c' (env.sealed c' w) w.scan).run { w with trace := t } = .ok () v' ∧
      SameSpeech v v' := by
  have hslot (c : Crypto) (env : Answer) (w : World N) :
      (Q2Admin.serveSlot c env w.scan).run w =
        (if (w.sockets w.scan).revents then
          if (w.sockets w.scan).fd = w.listener then acceptClient env.accept
          else Q2Admin.serveClient c env.recv env.hello w.scan
        else pure ()).run w := rfl
  obtain ⟨haccept, hhello⟩ := sealed_rest c w env
  obtain ⟨haccept', hhello'⟩ := sealed_rest c' w env
  rw [hslot, haccept, hhello] at hrun
  rw [hslot c' _ { w with trace := t }, haccept', hhello']
  by_cases hready : (w.sockets w.scan).revents = true
  · rw [if_pos hready] at hrun ⊢
    by_cases hl : (w.sockets w.scan).fd = w.listener
    · rw [if_pos hl] at hrun ⊢
      have hout := speech_acceptClient env.accept w { w with trace := t } ⟨t, rfl, ht⟩
      rw [hrun] at hout
      obtain ⟨_, v', hrun', rfl, hv⟩ := hout.ok
      exact ⟨v', hrun', hv⟩
    · rw [if_neg hl] at hrun ⊢
      exact h.serveClient hc hc' ht ⟨hready, hl⟩ hs hrun
  · rw [if_neg hready] at hrun ⊢
    cases hrun
    exact ⟨_, rfl, t, rfl, ht⟩

private theorem Crypto.Akin.step (h : c.Akin c') (hc : c.Inverts) (hc' : c'.Inverts) {m : Move}
    (hw : SameSpeech w w') (hs : m.sealable w = true) (hstep : stepSealed c m w = some v) :
    ∃ v', stepSealed c' m w' = some v' ∧ SameSpeech v v' := by
  have hfresh := hw.fresh
  obtain ⟨t, rfl, ht⟩ := hw
  cases m with
  | poll ready =>
    unfold stepSealed Move.sealed Q2Admin.step at hstep ⊢
    dsimp only at hstep ⊢
    split at hstep
    · cases hstep
    · next hdone =>
      cases hstep
      exact ⟨_, if_neg hdone, .polled ready :: t, rfl, congrArg (List.cons _) ht⟩
  | serve env =>
    obtain ⟨⟨hscan, hfree⟩, w₁, hrun, rfl⟩ := step_serve hstep
    obtain ⟨v', hrun', hv⟩ := h.serveSlot hc hc' ht hs hrun
    have hfree' : (env.sealed c' w).fresh { w with trace := t } = true := by
      rw [hfresh]
      unfold Answer.fresh at hfree ⊢
      rw [(sealed_rest c' w env).1]
      rwa [(sealed_rest c w env).1] at hfree
    refine ⟨{ v' with scan := w.scan + 1 }, ?_,
      hv.update (f := fun v ↦ { v with scan := w.scan + 1 }) (fun _ _ ↦ rfl) fun _ ↦ rfl⟩
    unfold stepSealed Move.sealed Q2Admin.step
    dsimp only
    have hsealed : Answer.sealed c' { w with trace := t } env = env.sealed c' w := rfl
    rw [hsealed, if_pos ⟨hscan, hfree'⟩, hrun']

end Steps

/-- The cipher shows in nothing but the bytes on the wire: to each run with clients that encipher
their messages with the one cipher there is the run with the other one, in which the same has been
received and sent, and which ends in the same state. -/
theorem cipher_transparent {c c' : Crypto} (h : c.Akin c') (hc : c.Inverts) (hc' : c'.Inverts)
    (rows : Fin N → Row) (listener : Nat) (junk : Nat → PollFd) {ms : List Move} {w : World N}
    (hrun : Run (stepSealed c) (fun m w ↦ m.sealable w = true) ms (initial rows listener junk) w) :
    ∃ w', Run (stepSealed c') (fun m w ↦ m.sealable w = true) ms (initial rows listener junk) w' ∧
      SameSpeech w w' := by
  have hstep (m : Move) (w w₁ w' : World N) (hs : m.sealable w = true) (hw : SameSpeech w w')
      (hstep : stepSealed c m w = some w₁) :
      m.sealable w' = true ∧ ∃ w₁', stepSealed c' m w' = some w₁' ∧ SameSpeech w₁ w₁' := by
    refine ⟨?_, h.step hc hc' hw hs hstep⟩
    obtain ⟨t, rfl, _⟩ := hw
    exact hs
  exact hrun.simulate hstep (.refl _)

/-- A cipher that turns messages around. -/
def Crypto.turning : Crypto :=
  { Crypto.clear with
    aesEncrypt := fun key iv plain ↦ Crypto.clear.aesEncrypt key iv plain.reverse
    aesEncrypt_length := fun key iv plain ↦ by
      rw [Crypto.clear.aesEncrypt_length, List.length_reverse]
    aesDecrypt := fun key iv cipher ↦ (Crypto.clear.aesDecrypt key iv cipher).reverse
    aesDecrypt_length_le := fun key iv cipher ↦ by
      rw [List.length_reverse]
      exact Crypto.clear.aesDecrypt_length_le key iv cipher }

private theorem take_padded (plain : List UInt8) {n : Nat} (hn : 0 < n) (hlt : n < 256) :
    (plain ++ List.replicate n n.toUInt8).take ((plain ++ List.replicate n n.toUInt8).length -
      ((plain ++ List.replicate n n.toUInt8).getLast?.getD 0).toNat) = plain := by
  obtain ⟨k, rfl⟩ := Nat.exists_eq_succ_of_ne_zero (Nat.ne_of_gt hn)
  have hlast : (plain ++ List.replicate (k + 1) (k + 1).toUInt8).getLast? =
      some (k + 1).toUInt8 := by
    rw [List.replicate_succ', ← List.append_assoc, List.getLast?_concat]
  have hlength : (plain ++ List.replicate (k + 1) (k + 1).toUInt8).length -
      ((some (k + 1).toUInt8).getD 0).toNat = plain.length := by
    have hbyte : ((some (k + 1).toUInt8).getD 0).toNat = k + 1 := Nat.mod_eq_of_lt hlt
    rw [hbyte, List.length_append, List.length_replicate, Nat.add_sub_cancel]
  rw [hlast, hlength]
  exact List.take_left

private theorem inverts_clear : Crypto.clear.Inverts := by
  intro key iv plain
  exact take_padded plain (n := 16 * (plain.length / 16 + 1) - plain.length) (by omega) (by omega)

private theorem inverts_turning : Crypto.turning.Inverts := by
  intro key iv plain
  change (Crypto.clear.aesDecrypt key iv (Crypto.clear.aesEncrypt key iv plain.reverse)).reverse = _
  rw [inverts_clear, List.reverse_reverse]

-- A server that asks for encryption, answers its challenge and sends a PING.
private def samplePing : List Move :=
  [.poll [3], .accepting 4, .skip, .poll [4], .skip,
    .receiving (sampleHello.set 16 1) (by decide), .poll [4], .skip,
    .receiving sampleAuth sampleAuth_length_le, .poll [4], .skip, .receiving [12] (by decide)]

/-- A PING of a trusted server is counted under both ciphers. -/
theorem cipher_transparent_sample :
    ∃ w w' : World 1, (w.servers 0).connection.pingCount = 1 ∧ SameSpeech w w' ∧
      (w'.servers 0).connection.pingCount = 1 := by
  have h : (follow (stepSealed Crypto.clear) (fun m w ↦ m.sealable w = true) samplePing
      sampleStart).any (fun w ↦ decide ((w.servers 0).connection.pingCount = 1)) = true := by
    decide +kernel
  obtain ⟨w, hrun, hw⟩ := Run.exists_of_follow h
  have hakin : Crypto.clear.Akin Crypto.turning := ⟨rfl, rfl⟩
  obtain ⟨w', -, hsame⟩ := cipher_transparent hakin inverts_clear inverts_turning _ 3 _ hrun
  have hping := of_decide_eq_true hw
  refine ⟨w, w', hping, hsame, ?_⟩
  obtain ⟨t, rfl, _⟩ := hsame
  exact hping

end Q2Admin
