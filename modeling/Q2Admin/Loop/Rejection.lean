import Q2Admin.Session.Frames
import Q2Admin.Loop.Endings

/-!
# Rejected first messages

Library `Q2Admin.Loop`. A HELLO writes the record of its server before it is known whether it
can be answered, and a rejection does not take that back. `rejection_clean_iff` says which
rejections leave no trace.
-/

namespace Q2Admin

open Exec

variable {N : Nat}

/-- The events since an earlier state. -/
def World.since (w' w : World N) : List Event :=
  w'.trace.take (w'.trace.length - w.trace.length)

private theorem since_of_append {w w' : World N} {t : List Event} (h : w'.trace = t ++ w.trace) :
    w'.since w = t := by
  unfold World.since
  rw [h, List.length_append, Nat.add_sub_cancel, List.take_left]

/-- The first message on a slot without owner has to be rejected: it is no HELLO, or one with an
unknown key, or the client's key file is missing, or our signature cannot be made. -/
def World.Rejects (w : World N) (env : Answer) (i : Nat) : Prop :=
  w.Client i ∧ w.getServer i = none ∧ env.recv.buffer.length ≠ 0 ∧
    match readFirst.run env.recv.buffer with
    | .ok .stranger _ => True
    | .ok (.hello h) _ =>
      w.serverOfKey h.key = none ∨ env.hello.keyFile = .missing ∨
        env.hello.sign h.challenge = .noKey ∨ env.hello.sign h.challenge = .failed
    | _ => False

/-- Rejecting the message in a slot has changed nothing but places in the table: the records are
as before, no public key dangles, the descriptor is closed and in no slot, and at most an
error message has been sent. -/
structure Unaffected (i : Nat) (w w' : World N) : Prop where
  records : ∀ s, w'.servers s = { w.servers s with index := (w'.servers s).index }
  keys : ∀ s k, (w'.servers s).publickey = some k → .released s .key k.handle ∉ w'.since w
  closed : .closed (w.sockets i).fd ∈ w'.since w
  gone : ∀ j, j < w'.socketCount → (w'.sockets j).fd ≠ (w.sockets i).fd
  sends : ((w'.since w).filter Event.isSent).length ≤ 1 ∧
    ∀ fd plain wire, .sent fd plain wire ∈ w'.since w → plain.head? = some scmdError

private theorem unaffected_turnAway (recv : Recv) (m : MsgBuffer) {i : Nat} {w : World N}
    (hwf : w.core.Wf) (slot : w.Client i)
    (hfree : ∀ s, (w.servers s).connected = true → (w.servers s).socket ≠ (w.sockets i).fd) :
    ∃ w', (turnAway i).run { w.receiving recv i with msg := m } = .ok () w' ∧
      Unaffected i w w' := by
  rw [turnAway_run]
  obtain ⟨w', hrun, hcore⟩ :=
    core_removeServerSocket (World.shut { w.receiving recv i with msg := m } i)
  obtain ⟨htable, htrace, hrecords⟩ := removeServerSocket_ok hrun
  have hsince : w'.since w = [.closed (w.sockets i).fd, .received (w.sockets i).fd] :=
    since_of_append htrace
  refine ⟨w', hrun, hrecords, ?_, ?_, fun j hj ↦ ?_, ?_⟩
  · intro s k _
    rw [hsince]
    simp
  · rw [hsince]
    exact List.mem_cons_self
  · cases j with
    | zero =>
      have hlistener : (w'.sockets 0).fd = w.listener := by
        have hzero : (w'.sockets 0).fd = (w.sockets 0).fd := by
          have h0 := (rebuilt_rebuild
            (World.shut { w.receiving recv i with msg := m } i).core).fds_zero
          rw [← hcore] at h0
          exact h0
        exact hzero.trans hwf.listener
      rw [hlistener]
      exact Ne.symm slot.2
    | succ j =>
      obtain ⟨s, hc, _, hfd⟩ := htable (j + 1) (Nat.succ_pos j) hj
      rw [hfd, hrecords s]
      rw [hrecords s] at hc
      exact hfree s hc
  · rw [hsince]
    simp [Event.isSent]

private theorem listed_again {i : Nat} {s : Fin N} {w w₁ w' : World N}
    (hconnected : (w₁.core.records s).connected = true)
    (hsocket : (w₁.core.records s).socket = (w.sockets i).fd)
    (hrun : (turnAway i).run w₁ = .ok () w') : ¬ Unaffected i w w' := by
  intro h
  have hrebuilt : Rebuilt (w₁.core.shut i) w'.core := by
    rw [core_turnAway hrun]
    exact rebuilt_rebuild _
  obtain ⟨⟨_, hlt⟩, hfd⟩ := hrebuilt.slot s hconnected
  exact h.gone _ hlt (hfd.trans hsocket)

/-- A rejection is clean exactly if there was no HELLO for a registered server, and no connected
server has the descriptor for its socket. -/
theorem rejection_clean_iff (c : Crypto) (rows : Fin N → Row) (listener : Nat)
    (junk : Nat → PollFd) (ms : List Move) (w : World N)
    (hrun : Run (step c) Unguarded ms (initial rows listener junk) w) (env : Answer) (i : Nat)
    (hrejects : w.Rejects env i) :
    (∃ w', (serveSlot c env i).run w = .ok () w' ∧ Unaffected i w w') ↔
      w.greeting env i = none ∧
        ∀ s, (w.servers s).connected = true → (w.servers s).socket ≠ (w.sockets i).fd := by
  have hwf := hrun.wf rows listener junk
  have hreceiving (m : MsgBuffer) :
      World.core { w.receiving env.recv i with msg := m } = w.core := core_receiving w env.recv i
  rcases hrejects with ⟨slot, owner, some, hfirst⟩
  constructor
  · rintro ⟨w', hserve, h⟩
    cases turn_of_serveSlot hserve with
    | idle same =>
      have hclosed := h.closed
      rw [same, since_of_append (t := []) rfl] at hclosed
      cases hclosed
    | accept fd ready listener => exact absurd listener slot.2
    | hangUp q2 _ claimed => exact absurd (owner.symm.trans claimed) (Option.some_ne_none q2).symm
    | message q2 cmds m _ claimed =>
      exact absurd (owner.symm.trans claimed) (Option.some_ne_none q2).symm
    | peer request m _ _ read => rw [read] at hfirst; exact hfirst.elim
    | stranger m _ _ unknown run =>
      refine ⟨unknown, fun s hc he ↦ listed_again (s := s) ?_ ?_ run h⟩
      · rw [hreceiving]
        exact hc
      · rw [hreceiving]
        exact he
    | refused q2 hello m w₁ _ _ greeting silent register run =>
      have hcore := core_register greeting register
      refine (listed_again (s := q2) ?_ ?_ run h).elim
      · rw [hcore, Core.bind_connected]
      · rw [hcore, Core.bind_socket]
        rfl
    | hello q2 hello m w₁ cmds m' _ _ greeting answers heard register run =>
      obtain ⟨hread, hkey⟩ := greeting_some greeting
      obtain ⟨hfile, hsign, _⟩ :=
        registerHello_signed (w := { w.receiving env.recv i with msg := m }) hkey register
      rw [hread] at hfirst
      rcases hfirst with hno | hno | hno | hno
      · rw [hkey] at hno
        cases hno
      · exact absurd hno hfile
      · unfold HelloEnv.answers signClientChallenge at answers
        rw [hno] at answers
        cases answers
      · exact absurd hno hsign
  · rintro ⟨hgreeting, hfree⟩
    have hturned (m : MsgBuffer) := unaffected_turnAway env.recv m hwf slot hfree
    have hacts {first : First} {m : MsgBuffer} {w' : World N}
        (hread : readFirst.run env.recv.buffer = .ok first m)
        (hact : (actFirst c env.hello i first).run { w.receiving env.recv i with msg := m } =
          .ok () w') : (serveSlot c env i).run w = .ok () w' := by
      rw [serveSlot_run_client slot, serveClient_run, if_neg some, owner]
      exact (firstMessage_splits c env.hello i _ _ _).mpr ⟨first, m, hread, hact⟩
    cases hread : readFirst.run env.recv.buffer with
    | error e m =>
      rw [hread] at hfirst
      exact hfirst.elim
    | ok first m =>
      obtain ⟨w', hturn, hclean⟩ := hturned m
      rw [hread] at hfirst
      cases first with
      | peer request => exact hfirst.elim
      | stranger => exact ⟨w', hacts hread hturn, hclean⟩
      | hello h =>
        refine ⟨w', hacts hread ?_, hclean⟩
        have hkey : w.serverOfKey h.key = none := by
          unfold World.greeting at hgreeting
          rw [if_pos ⟨slot, owner⟩, hread] at hgreeting
          exact Option.map_eq_none_iff.mp hgreeting
        have hregister : (registerHello c env.hello i h).run
            { w.receiving env.recv i with msg := m } =
              .ok none { w.receiving env.recv i with msg := m } := registerHello_unknown hkey
        unfold actFirst
        dsimp only
        rw [run_bind_of_ok hregister]
        exact hturn

-- A socket has been accepted, and what it has sent is up next.
private def sampleAccepted : List Move := [.poll [3], .accepting 4, .skip, .poll [4], .skip]

-- A message that does not even begin with a magic number.
private def sampleStranger : Answer := .sample none (.packet ⟨[0], by decide⟩)

-- A HELLO while our private key cannot be read.
private def sampleUnsigned : Answer :=
  { Answer.sample none (.packet ⟨sampleHello, sampleHello_length_le⟩) with
    hello := { (Answer.sample none .failed).hello with sign := fun _ ↦ .noKey } }

/-- A stranger is turned away. -/
theorem rejection_clean_sample :
    ∃ w w' : World 1, w.Client 1 ∧ Unaffected 1 w w' := by
  have h : (follow (step Crypto.clear) Unguarded sampleAccepted sampleStart).any (fun w ↦
      decide (w.Client 1) && (w.getServer 1).isNone && !(w.servers 0).connected) = true := by
    decide +kernel
  obtain ⟨w, hrun, hw⟩ := Run.exists_of_follow h
  rw [Bool.and_eq_true, Bool.and_eq_true] at hw
  rcases hw with ⟨⟨hslot, howner⟩, hidle⟩
  obtain ⟨m, hread⟩ : ∃ m, readFirst.run sampleStranger.recv.buffer = .ok .stranger m := ⟨_, rfl⟩
  have hrejects : w.Rejects sampleStranger 1 := by
    refine ⟨of_decide_eq_true hslot, Option.isNone_iff_eq_none.mp howner, by decide, ?_⟩
    rw [hread]
    exact trivial
  have hgreeting : w.greeting sampleStranger 1 = none := by
    unfold World.greeting
    rw [hread]
    exact ite_self none
  obtain ⟨w', _, hclean⟩ := (rejection_clean_iff _ _ _ _ _ w hrun _ 1 hrejects).mpr
    ⟨hgreeting, fun s hc ↦ by rw [Subsingleton.elim s 0] at hc; simp [hc] at hidle⟩
  exact ⟨w, w', of_decide_eq_true hslot, hclean⟩

/-- A HELLO that cannot be answered leaves its server connected. -/
theorem rejection_unclean :
    ¬ ∀ (ms : List Move) (w : World 1), Run (step Crypto.clear) Unguarded ms sampleStart w →
      ∀ env i, w.Rejects env i →
        ∃ w', (serveSlot Crypto.clear env i).run w = .ok () w' ∧ Unaffected i w w' := by
  have h : (follow (step Crypto.clear) Unguarded sampleAccepted sampleStart).any (fun w ↦
      (decide (w.Client 1) && (w.getServer 1).isNone &&
        !(w.servers 0).connected) &&
      (returned (serveSlot Crypto.clear sampleUnsigned 1) w).any fun w' ↦
        (w'.servers 0).connected) = true := by
    decide +kernel
  obtain ⟨w, hrun, hw⟩ := Run.exists_of_follow h
  simp only [Bool.and_eq_true] at hw
  rcases hw with ⟨⟨⟨hslot, howner⟩, hidle⟩, hreturned⟩
  obtain ⟨_, w₁, hserve, hconnected⟩ := exists_of_returned hreturned
  intro hall
  have hrejects : w.Rejects sampleUnsigned 1 := by
    refine ⟨of_decide_eq_true hslot, Option.isNone_iff_eq_none.mp howner, by decide, ?_⟩
    obtain ⟨h, m, hread⟩ : ∃ h m, readFirst.run sampleUnsigned.recv.buffer = .ok (.hello h) m :=
      ⟨_, _, rfl⟩
    rw [hread]
    exact .inr (.inr (.inl rfl))
  obtain ⟨w', hserve', hclean⟩ := hall _ w hrun sampleUnsigned 1 hrejects
  rw [hserve] at hserve'
  cases hserve'
  rw [hclean.records 0] at hconnected
  simp [show (w.servers 0).connected = true from hconnected] at hidle

end Q2Admin
