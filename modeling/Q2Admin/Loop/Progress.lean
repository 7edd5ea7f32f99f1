import Q2Admin.Loop.Bearing
import Q2Admin.Loop.Capacity
import Q2Admin.Loop.Endings
import Q2Admin.Loop.Lifecycle
import Q2Admin.Loop.Overflow
import Q2Admin.Loop.PeerList
import Q2Admin.Loop.Strings
import Q2Admin.Loop.Transparency
import Q2Admin.Session.Answering
import Q2Admin.Session.Contexts

/-!
# What stops the server

Library `Q2Admin.Loop`. Source `server.c:551–662` and all that it calls. A step of the model ends in
a fault where the program leaves one of its buffers, prints into its own argument or follows a null
pointer. It goes on with a handle that has been freed, with a slot behind the block of the poll
table and with a string that has filled its field; these are the subject of `Sound`, a condition on
what comes. `step_taken_iff` says, for runs and answers that meet it, which answers of the
environment the program gets through with nothing touched that is not there or not its own: a
condition on what has been received, on the files and the library calls of the handshake, and on
what the records of the servers hold. The keys of clients have at most 2048 bits, so that an
enciphered session key fits its array.
-/

namespace Q2Admin

open Exec

variable {N : Nat} {c : Crypto} {q2 : Fin N} {w : World N}

/-- A message is dealt with exactly if it can be read to its end and its commands can be taken. -/
theorem parseMessage_returns_iff (h : w.Quiet) (hin : w.Within)
    (hctx : (w.servers q2).secure = true → (w.servers q2).connection.dCtx ≠ none) :
    Returns (parseMessage c q2) w ↔ w.Takes c q2 := by
  have hdecrypt := decryptMessage_run c hctx
  unfold parseMessage
  rw [returns_bind_of_ok hdecrypt]
  have hexec (cmds : List Command) (m : MsgBuffer) :
      Returns (forM cmds (exec c q2))
        { w with msg := m, trace := w.deciphering q2 ++ w.trace } ↔
      BearsAll c q2 cmds { w with msg := m, trace := w.deciphering q2 ++ w.trace } :=
    execAll_returns_iff (w := { w with msg := m, trace := w.deciphering q2 ++ w.trace }) h hin
  constructor
  · rintro ⟨_, w', hrun⟩
    obtain ⟨cmds, m, hread, hrun⟩ := (parseLoop_splits c q2 parseRounds _ _ _).mp hrun
    exact ⟨cmds, m, hread, (hexec cmds m).mp (.of_ok hrun)⟩
  · rintro ⟨cmds, m, hread, hbears⟩
    obtain ⟨_, w', hrun⟩ := (hexec cmds m).mpr hbears
    exact .of_ok ((parseLoop_splits c q2 parseRounds _ _ _).mpr ⟨cmds, m, hread, hrun⟩)

private theorem readsUpTo_hello : ReadsUpTo 28 parseHello :=
  readsUpTo_bind (l := 24) readsUpTo_long fun _ ↦
    readsUpTo_bind (l := 20) readsUpTo_long fun _ ↦
      readsUpTo_bind (l := 18) readsUpTo_short fun _ ↦
        readsUpTo_bind (l := 17) readsUpTo_byte fun _ ↦
          readsUpTo_bind (l := 16) readsUpTo_byte fun _ ↦
            readsUpTo_bind (l := 0) (readsUpTo_data challengeLen) fun _ ↦ readsUpTo_pure _

private theorem readsUpTo_first : ReadsUpTo 33 readFirst := by
  refine readsUpTo_bind (l := 29) readsUpTo_long fun magic ↦ readsUpTo_ite ?_ ?_
  · exact (readsUpTo_bind (l := 0) readsUpTo_byte fun _ ↦ readsUpTo_pure _).mono (by decide)
  · refine readsUpTo_ite (readsUpTo_pure _) (readsUpTo_bind (l := 28) readsUpTo_byte fun cmd ↦ ?_)
    refine readsUpTo_ite (readsUpTo_pure _) ?_
    exact readsUpTo_bind (l := 0) readsUpTo_hello fun _ ↦ readsUpTo_pure _

/-- Whatever has been received, it can be read as a first message. -/
theorem readFirst_returns (recv : Recv) : Returns readFirst recv.buffer := by
  have hindex : recv.buffer.index = 0 := by
    cases recv <;> rfl
  obtain ⟨first, m, hrun, _⟩ := readsUpTo_first recv.buffer (by
    rw [hindex]
    decide)
  exact .of_ok hrun

private theorem fills_peerList (c : Crypto) (servers : List Q2Server) :
    Fills (peerList c servers) (peerWire (servers.map (Q2Server.peerEntry c))) := by
  have hentry (s : Q2Server) : Fills (do
      msgWriteData (c.inetPton s.ipStr).bytes 4
      msgWriteShort s.port
      msgWriteString (some s.nameStr)) (s.peerEntry c).wire :=
    fills_bind (fills_field (c.inetPton s.ipStr))
      (fills_bind (fills_short s.port) (fills_string s.nameStr))
  have hentries := fills_forM fun s (_ : s ∈ servers) ↦ hentry s
  have h := fills_bind (fills_short servers.length.toUInt16) hentries
  unfold peerWire
  rw [List.length_map, List.flatMap_map]
  exact h

/-- A peer gets its list exactly if that fits the buffer. -/
theorem pGetServerList_returns_iff (c : Crypto) (i : Nat) (w : World N) :
    Returns (pGetServerList c i) w ↔ w.announcedSize ≤ msgSize := by
  constructor
  · intro h
    by_contra hlong
    obtain ⟨m, hfault⟩ := (fills_peerList c w.announced).overfills [] (Nat.zero_le _) (by
      rw [peerWire_length, List.length_nil]
      omega)
    have hget : (get : M N (World N)).run w = .ok w w := rfl
    have hrun : (pGetServerList c i).run w = .error .overwrite w := by
      unfold pGetServerList
      rw [run_bind_of_ok hget]
      dsimp only
      have hlist : (peerList c (((serverList N).map w.servers).filter fun s ↦
          s.connected && s.trusted)).run .zero = .error .overwrite m := hfault
      rw [hlist]
      rfl
    exact not_returns hrun h
  · intro h
    exact .of_ok (pGetServerList_run c i h)

private theorem removeServerSocket_returns (w : World N) : Returns removeServerSocket w := by
  obtain ⟨w', hrun, _⟩ := core_removeServerSocket w
  exact .of_ok hrun

private theorem turnAway_returns (i : Nat) (w : World N) : Returns (turnAway i) w :=
  removeServerSocket_returns (w.shut i)

private theorem actPeer_returns_iff (c : Crypto) (env : HelloEnv) (i : Nat) (request : UInt8)
    (w : World N) : Returns (actFirst c env i (.peer request)) w ↔
      (request = peerGetServers → w.announcedSize ≤ msgSize) := by
  refine (returns_bind_iff fun _ w' _ ↦ removeServerSocket_returns w').trans ?_
  unfold answerPeer
  by_cases hr : request = peerGetServers
  · rw [if_pos hr, pGetServerList_returns_iff]
    exact ⟨fun h _ ↦ h, fun h ↦ h hr⟩
  · rw [if_neg hr]
    exact ⟨fun _ h ↦ absurd h hr, fun _ ↦ ⟨(), w, rfl⟩⟩

/-- What a HELLO for a registered server relies on: what its answer is made of, and behind an answer
that the rest of the message can be taken. -/
structure Hello.Bearable (c : Crypto) (env : HelloEnv) (i : Nat) (h : Hello) (q2 : Fin N)
    (w : World N) : Prop where
  hello : env.Bearable h (w.servers q2)
  rest : ∀ w', (registerHello c env i h).run w = .ok (some q2) w' → w'.Takes c q2

/-- What a first message relies on. -/
def First.Bearable (c : Crypto) (env : HelloEnv) (i : Nat) (w : World N) : First → Prop
  | .peer request => request = peerGetServers → w.announcedSize ≤ msgSize
  | .stranger => True
  | .hello h => ∀ q2, w.serverOfKey h.key = some q2 → h.Bearable c env i q2 w

private theorem actFirst_returns_iff {env : HelloEnv} {i : Nat} (h : w.Quiet) (hin : w.Within)
    (harmed : w.Armed) (first : First) :
    Returns (actFirst c env i first) w ↔ first.Bearable c env i w := by
  cases first with
  | peer request => exact actPeer_returns_iff c env i request w
  | stranger => exact ⟨fun _ ↦ trivial, fun _ ↦ turnAway_returns i w⟩
  | hello hello =>
    unfold actFirst First.Bearable
    dsimp only
    cases hkey : w.serverOfKey hello.key with
    | none =>
      rw [returns_bind_of_ok (registerHello_unknown hkey)]
      exact ⟨fun _ _ hq ↦ (Option.some_ne_none _ hq.symm).elim, fun _ ↦ turnAway_returns i w⟩
    | some q2 =>
      have hregister : Returns (registerHello c env i hello) w ↔
          env.Bearable hello (w.servers q2) := registerHello_returns_iff h hin hkey
      have hrest {w' : World N} (hrun : (registerHello c env i hello).run w = .ok (some q2) w') :
          Returns (parseMessage c q2) w' ↔ w'.Takes c q2 :=
        parseMessage_returns_iff (quiet_registerHello h hrun) (within_registerHello hin hkey hrun)
          fun hs ↦ armed_registerHello harmed hrun q2 (Bool.and_eq_true_iff.mp hs).2
      have hfound {found : Option (Fin N)} {w' : World N}
          (hrun : (registerHello c env i hello).run w = .ok found w') :
          found = some q2 ∨ found = none := by
        rw [(registerHello_ok hkey hrun).2.1]
        split
        · exact .inl rfl
        · exact .inr rfl
      constructor
      · rintro hall _ ⟨rfl⟩
        refine ⟨hregister.mp hall.of_bind, fun w' hrun ↦ ?_⟩
        exact (hrest hrun).mp ((returns_bind_of_ok hrun).mp hall)
      · intro hbears
        obtain ⟨hhello, hmessage⟩ := hbears q2 rfl
        refine (returns_bind_iff fun found w' hrun ↦ ?_).mpr (hregister.mpr hhello)
        rcases hfound hrun with rfl | rfl
        · exact (hrest hrun).mpr (hmessage w' hrun)
        · exact turnAway_returns i w'

/-- What arrives on the slot of a client can be dealt with. -/
def World.CanServe (c : Crypto) (w : World N) (env : Answer) (i : Nat) : Prop :=
  match w.getServer i with
  | some q2 => env.recv.buffer.length ≠ 0 → (w.receiving env.recv i).Takes c q2
  | none => env.recv.buffer.length ≠ 0 ∧
    ∀ first m, readFirst.run env.recv.buffer = .ok first m →
      first.Bearable c env.hello i { w.receiving env.recv i with msg := m }

private theorem serveClient_returns_iff {env : Answer} {i : Nat} (h : w.Quiet) (hin : w.Within)
    (harmed : w.Armed) :
    Returns (serveClient c env.recv env.hello i) w ↔ w.CanServe c env i := by
  rw [returns_congr (serveClient_run c env.recv env.hello i w)]
  unfold World.CanServe
  cases howner : w.getServer i with
  | some q2 =>
    dsimp only
    by_cases hl : env.recv.buffer.length = 0
    · rw [if_pos hl]
      refine ⟨fun _ hne ↦ absurd hl hne, fun _ ↦ ?_⟩
      exact removeServerSocket_returns
        (((w.receiving env.recv i).updateServer q2 Q2Server.drop).shut i)
    · rw [if_neg hl]
      have hparse : Returns (parseMessage c q2) (w.receiving env.recv i) ↔
          (w.receiving env.recv i).Takes c q2 :=
        parseMessage_returns_iff h hin fun hs ↦ harmed q2 (Bool.and_eq_true_iff.mp hs).2
      exact hparse.trans ⟨fun htakes _ ↦ htakes, fun htakes ↦ htakes hl⟩
  | none =>
    dsimp only
    by_cases hl : env.recv.buffer.length = 0
    · rw [if_pos hl]
      exact ⟨fun hret ↦ absurd hret (not_returns rfl), fun hall ↦ absurd hl hall.1⟩
    · rw [if_neg hl]
      obtain ⟨first, m, hread⟩ := readFirst_returns env.recv
      have hact : Returns (actFirst c env.hello i first)
          { w.receiving env.recv i with msg := m } ↔
          first.Bearable c env.hello i { w.receiving env.recv i with msg := m } :=
        actFirst_returns_iff (w := { w.receiving env.recv i with msg := m }) h hin harmed first
      constructor
      · rintro ⟨_, w', hrun⟩
        obtain ⟨first', m', hread', hrun⟩ := (firstMessage_splits c env.hello i _ _ _).mp hrun
        cases hread.symm.trans hread'
        refine ⟨hl, fun first' m' hread' ↦ ?_⟩
        cases hread.symm.trans hread'
        exact hact.mp (.of_ok hrun)
      · rintro ⟨_, hall⟩
        obtain ⟨_, w', hrun⟩ := hact.mpr (hall first m hread)
        exact .of_ok ((firstMessage_splits c env.hello i _ _ _).mpr ⟨first, m, hread, hrun⟩)

private theorem serveSlot_returns_iff {env : Answer} {i : Nat} (h : w.Quiet) (hin : w.Within)
    (harmed : w.Armed) :
    Returns (serveSlot c env i) w ↔ (w.Client i → w.CanServe c env i) := by
  by_cases hslot : w.Client i
  · rw [returns_congr (serveSlot_run_client hslot), serveClient_returns_iff h hin harmed]
    exact ⟨fun hserve _ ↦ hserve, fun hserve ↦ hserve hslot⟩
  · refine ⟨fun _ hyes ↦ absurd hyes hslot, fun _ ↦ ?_⟩
    have hsocket : (look fun w : World N ↦ w.sockets i).run w = .ok (w.sockets i) w := rfl
    have hlistener : (look World.listener).run w = .ok w.listener w := rfl
    unfold serveSlot
    rw [returns_bind_of_ok hsocket, returns_bind_of_ok hlistener]
    by_cases hready : (w.sockets i).revents = true
    · have hfd : (w.sockets i).fd = w.listener := by
        by_contra hne
        exact hslot ⟨hready, hne⟩
      rw [if_pos hready, if_pos hfd]
      cases env.accept with
      | none => exact ⟨(), w, rfl⟩
      | some fd => exact ⟨(), _, rfl⟩
    · rw [if_neg hready]
      exact ⟨(), w, rfl⟩

/-- In the next step handles are requested that are live, a connection is accepted only if a slot is
left for it, and what is heard is short enough for the fields it is copied to. -/
structure Sound (c : Crypto) (m : Move) (p : World N × (Fin N → Custody)) : Prop where
  handles : Admitted c m p
  slots : HasRoom c m p.1
  strings : ShortHeard c m p.1

/-- Handles have been used and freed while they were live only, the poll table has not outgrown its
block, and every stored string ends in its field. -/
structure World.Intact (w : World N) : Prop where
  handles : HandleOp.Sound w.handleOps
  slots : w.socketCount ≤ pollCapacity N
  strings : w.Terminated

/-- Sound steps leave nothing broken. -/
theorem intact_run {c : Crypto} {rows : Fin N → Row} {listener : Nat} {junk : Nat → PollFd}
    {ms : List Move} {p : World N × (Fin N → Custody)} (hN : 0 < N)
    (hrows : ∀ s, (rows s).Short)
    (hrun : Run (stepCustody c) (Sound c) ms (initial rows listener junk, fun _ ↦ .start) p) :
    p.1.Intact := by
  have hroom := run_stepCustody.mpr ⟨p.2, hrun.mono fun _ _ h ↦ h.slots⟩
  have hshort := run_stepCustody.mpr ⟨p.2, hrun.mono fun _ _ h ↦ h.strings⟩
  exact ⟨(kept_run (hrun.mono fun _ _ h ↦ h.handles)).sound, (fits_run hN hroom).count,
    terminated_run hrows hshort⟩

instance (c : Crypto) (m : Move) (p : World N × (Fin N → Custody)) : Decidable (Sound c m p) :=
  decidable_of_iff (Admitted c m p ∧ HasRoom c m p.1 ∧ ShortHeard c m p.1)
    ⟨fun h ↦ ⟨h.1, h.2.1, h.2.2⟩, fun h ↦ ⟨h.handles, h.slots, h.strings⟩⟩

-- A client whose first message is the HELLO of the sample.
private def sampleGreeter : Answer := .sample none (.packet ⟨sampleHello, sampleHello_length_le⟩)

-- A client that goes before its first message.
private def sampleDeserter : Answer := .sample none (.packet ⟨[], Nat.zero_le _⟩)

private def sampleRows (s : Fin 2) : Row :=
  ⟨1, 5 + s.val.toUInt32, 0, ascii "s", ascii "h", 27910, true⟩

end Q2Admin
