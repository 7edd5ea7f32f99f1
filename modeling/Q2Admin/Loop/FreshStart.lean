import Q2Admin.Session.Sight
import Q2Admin.Session.Frames
import Q2Admin.Loop.Trust

/-!
# What a new session starts from

Library `Q2Admin.Loop`. Source `server.c:395–415`, `server.c:508–544` and `server.c:619–630`.
Neither the ways in which a connection ends nor a HELLO reset the players, the map, the count of
pings and the trust, so a server starts from what its commands have left in all its sessions:
`run_sight` and `run_trusted`. `starts_fresh_iff` says when that is nothing.
-/

namespace Q2Admin

open Exec

variable {N : Nat} {c : Crypto} {s q2 : Fin N} {w w' : World N}

/-- What a server is to other players and to peers: what is seen of it, and whether it is
trusted, without which it is shown to nobody; `util.c:231–232`, `peer.c:24–26`. -/
structure Appearance where
  sight : Sight
  trusted : Bool

/-- What a record is to others. -/
def Q2Server.appearance (s : Q2Server) : Appearance := ⟨s.sight, s.trusted⟩

/-- A server that has not been there. -/
def Appearance.fresh : Appearance := ⟨.fresh, false⟩

/-- A HELLO changes nothing in what any server is to others. -/
theorem appearance_registerHello {env : HelloEnv} {i : Nat} {h : Hello} {found : Option (Fin N)}
    (hkey : w.serverOfKey h.key = some q2)
    (hr : (registerHello c env i h).run w = .ok found w') (s : Fin N) :
    (w'.servers s).appearance = (w.servers s).appearance := by
  obtain ⟨_, _, plain, rfl, _⟩ := registerHello_ok hkey hr
  by_cases hs : s = q2
  · subst hs
    rw [World.posted_self, World.replying_self]
    dsimp only
    split <;> rfl
  · rw [World.posted_of_ne _ _ _ hs, World.replying_of_ne _ _ _ _ hs]

/-- A HELLO that comes on a slot changes nothing in what any server is to others. -/
theorem appearance_greeting {env : Answer} {i : Nat} {h : Hello} {m : MsgBuffer}
    {found : Option (Fin N)} (greeting : w.greeting env i = some (q2, h, m))
    (register : (registerHello c env.hello i h).run { w.receiving env.recv i with msg := m } =
      .ok found w') (s : Fin N) : (w'.servers s).appearance = (w.servers s).appearance := by
  have hkey : World.serverOfKey { w.receiving env.recv i with msg := m } h.key = some q2 :=
    (greeting_some greeting).2
  exact appearance_registerHello hkey register s

/-- A HELLO that comes on a slot leaves what is seen of every server. -/
theorem sight_greeting {env : Answer} {i : Nat} {h : Hello} {m : MsgBuffer}
    {found : Option (Fin N)} (greeting : w.greeting env i = some (q2, h, m))
    (register : (registerHello c env.hello i h).run { w.receiving env.recv i with msg := m } =
      .ok found w') (s : Fin N) : (w'.servers s).sight = (w.servers s).sight :=
  congrArg Appearance.sight (appearance_greeting greeting register s)

/-- The commands of `s` among those that are heard. -/
def heardOf (s : Fin N) : Option (Fin N × List Command) → List Command
  | some (q2, cmds) => if q2 = s then cmds else []
  | none => []

/-- The commands of one server do to what is seen of `s` what they mean, if they are its own. -/
theorem sight_execAll {cmds : List Command}
    (h : (forM cmds (exec c q2)).run w = .ok () w') :
    (w'.servers s).sight = (w.servers s).sight.after (heardOf s (some (q2, cmds))) := by
  by_cases hs : q2 = s
  · have hown : heardOf s (some (q2, cmds)) = cmds := if_pos hs
    rw [hown, ← hs]
    exact execAll_sight h
  · have hother : heardOf s (some (q2, cmds)) = [] := if_neg hs
    rw [hother]
    exact (congrArg Q2Server.sight (settled_execAll (Ne.symm hs) h) :)

/-- What is seen of a server after a turn. -/
theorem sight_turn {env : Answer} {i : Nat} (h : Turn c env i w w') (s : Fin N) :
    (w'.servers s).sight = (w.servers s).sight.after (heardOf s (w.heard c env i)) := by
  have hindex (r : Q2Server) (i : Nat) : Q2Server.sight { r with index := i } = r.sight := rfl
  have hsilent (heard : w.heard c env i = none)
      (hsame : (w'.servers s).sight = (w.servers s).sight) :
      (w'.servers s).sight = (w.servers s).sight.after (heardOf s (w.heard c env i)) := by
    rw [heard, hsame]
    rfl
  cases h with
  | idle same slot =>
    refine hsilent (silent_of_not_client c env slot).2 ?_
    rw [same]
  | accept fd _ slot _ run =>
    refine hsilent (silent_of_not_client c env fun hs ↦ hs.2 slot).2 ?_
    cases run
    rfl
  | hangUp q2 _ owner ended run =>
    have hkept := (keeps_server_hangUp hindex (fun _ ↦ rfl) s q2 i).ok run
    exact hsilent (heard_of_ended owner ended) (hkept.trans rfl)
  | peer request m slot owner read run =>
    have greeting := greeting_of_peer slot owner read
    exact hsilent (heard_of_stranger owner greeting)
      (((keeps_server_peer hindex c s i request).ok run).trans rfl)
  | stranger m _ owner unknown run =>
    exact hsilent (heard_of_stranger owner unknown)
      (((keeps_server_turnAway hindex s i).ok run).trans rfl)
  | message q2 cmds m _ _ heard run =>
    rw [heard]
    exact (sight_execAll run).trans rfl
  | refused q2 h m w₁ _ owner greeting silent register run =>
    exact hsilent (heard_of_silent owner greeting silent)
      (((keeps_server_turnAway hindex s i).ok run).trans (sight_greeting greeting register s))
  | hello q2 h m w₁ cmds m' _ _ greeting _ heard register run =>
    rw [heard, ← sight_greeting greeting register s]
    exact (sight_execAll run).trans rfl

/-- The commands of a server that are heard in a history, in order. -/
def heardIn (c : Crypto) (s : Fin N) : List Move → World N → List Command
  | [], _ => []
  | m :: ms, w => heardOf s (moveHeard c m w) ++ (step c m w).elim [] (heardIn c s ms)

private theorem sight_step {m : Move} (h : step c m w = some w') (s : Fin N) :
    (w'.servers s).sight = (w.servers s).sight.after (heardOf s (moveHeard c m w)) := by
  cases m with
  | poll ready =>
    rw [step_poll h]
    rfl
  | serve env =>
    obtain ⟨w₁, hturn, rfl⟩ := step_turn h
    exact sight_turn hturn s

/-- What is seen of a server after a history is what its commands mean, however its sessions
have begun and ended. -/
theorem run_sight {G : Move → World N → Prop} {ms : List Move} (hrun : Run (step c) G ms w w')
    (s : Fin N) : (w'.servers s).sight = (w.servers s).sight.after (heardIn c s ms w) := by
  induction hrun with
  | nil w => rfl
  | @cons m ms w w₁ w₂ _ hs _ ih =>
    have hcons : heardIn c s (m :: ms) w = heardOf s (moveHeard c m w) ++ heardIn c s ms w₁ := by
      rw [heardIn, hs, Option.elim_some]
    rw [ih, sight_step hs, hcons, Sight.after_append]

/-- In a history an AUTH that is heard from the server is accepted: it deciphers under the stored
key to the challenge that is stored then. -/
def GrantedIn (c : Crypto) (s : Fin N) : List Move → World N → Prop
  | [], _ => False
  | m :: ms, w => (moveEffect c m w).Grants s ∨ (step c m w).elim False (GrantedIn c s ms)

instance (s : Fin N) : (e : Effect N) → Decidable (e.Grants s)
  | .hello q2 _ _ _ (some ops) => inferInstanceAs (Decidable (s = q2 ∧ .grant ∈ ops))
  | .message q2 _ ops => inferInstanceAs (Decidable (s = q2 ∧ .grant ∈ ops))
  | .idle | .accept _ | .hangUp _ _ | .reject _ | .peer _ _ | .hello _ _ _ _ none => .isFalse id

instance decidableGrantedIn (c : Crypto) (s : Fin N) :
    (ms : List Move) → (w : World N) → Decidable (GrantedIn c s ms w)
  | [], _ => .isFalse id
  | m :: ms, w =>
    have : Decidable ((step c m w).elim False (GrantedIn c s ms)) :=
      match step c m w with
      | none => .isFalse id
      | some w' => decidableGrantedIn c s ms w'
    inferInstanceAs (Decidable (_ ∨ _))

/-- A server is trusted after a history exactly if it was before or an AUTH of it was accepted,
however its sessions have begun and ended. -/
theorem run_trusted {G : Move → World N → Prop} {ms : List Move} (hrun : Run (step c) G ms w w')
    (s : Fin N) : (w'.servers s).trusted = true ↔
      (w.servers s).trusted = true ∨ GrantedIn c s ms w := by
  induction hrun with
  | nil w => exact (or_iff_left id).symm
  | @cons m ms w w₁ w₂ _ hs _ ih =>
    have hone : (w₁.servers s).trusted = true ↔
        (w.servers s).trusted = true ∨ (moveEffect c m w).Grants s := by
      have hcore := Core.trusted_run w.core (moveEffect c m w) s
      rwa [← core_step hs] at hcore
    have hcons : GrantedIn c s (m :: ms) w ↔
        (moveEffect c m w).Grants s ∨ GrantedIn c s ms w₁ := by
      rw [GrantedIn, hs, Option.elim_some]
    rw [ih, hone, or_assoc, hcons]

/-- The history leaves nothing of the server: neither its commands nor an AUTH that was
accepted. -/
structure LeavesFresh (c : Crypto) (s : Fin N) (ms : List Move) (w : World N) : Prop where
  commands : LeavesNothing (heardIn c s ms w)
  auths : ¬ GrantedIn c s ms w

/-- The server has gone in the first state, and the second one is that behind a HELLO for it on
the slot that the scan serves. -/
structure Rejoins (c : Crypto) (s : Fin N) (env : Answer) (w w' : World N) : Prop where
  gone : (w.servers s).connected = false
  hello : ∃ h m found, w.greeting env w.scan = some (s, h, m) ∧
    (registerHello c env.hello w.scan h).run { w.receiving env.recv w.scan with msg := m } =
      .ok found w'

/-- The server is the same to others in both states, and nothing is there of an earlier
session. -/
def StartsFresh (s : Fin N) (w w' : World N) : Prop :=
  (w.servers s).appearance = (w'.servers s).appearance ∧ (w.servers s).appearance = .fresh

private theorem appearance_eq_iff {a : Appearance} :
    a = .fresh ↔ a.sight = .fresh ∧ ¬ a.trusted = true := by
  obtain ⟨sight, trusted⟩ := a
  simp [Appearance.fresh]

/-- After a history behind which a server has gone, a HELLO starts it afresh exactly if the
history leaves nothing of it. -/
theorem appearance_rejoins_iff {rows : Fin N → Row} {listener : Nat} {junk : Nat → PollFd}
    {ms : List Move} {v : World N} {env : Answer}
    (hrun : Run (step c) Unguarded ms (initial rows listener junk) w)
    (hhello : Rejoins c s env w v) :
    (v.servers s).appearance = .fresh ↔ LeavesFresh c s ms (initial rows listener junk) := by
  obtain ⟨hello, m, found, greeting, register⟩ := hhello.hello
  have hsight : (w.servers s).appearance.sight =
      Sight.fresh.after (heardIn c s ms (initial rows listener junk)) := run_sight hrun s
  have htrusted : (w.servers s).appearance.trusted = true ↔
      GrantedIn c s ms (initial rows listener junk) :=
    (run_trusted hrun s).trans (or_iff_right Bool.false_ne_true)
  rw [appearance_greeting greeting register s, appearance_eq_iff, hsight, leavesNothing_iff,
    htrusted]
  exact ⟨fun h ↦ ⟨h.1, h.2⟩, fun h ↦ ⟨h.commands, h.auths⟩⟩

/-- After two histories behind which a server has gone, the same HELLO starts it afresh exactly
if each of the histories leaves nothing of it. -/
theorem starts_fresh_iff (c : Crypto) (rows : Fin N → Row) (listener listener' : Nat)
    (junk junk' : Nat → PollFd) (ms ms' : List Move) (w w' v v' : World N) (s : Fin N)
    (env : Answer)
    (hrun : Run (step c) Unguarded ms (initial rows listener junk) w)
    (hrun' : Run (step c) Unguarded ms' (initial rows listener' junk') w')
    (hhello : Rejoins c s env w v) (hhello' : Rejoins c s env w' v') :
    StartsFresh s v v' ↔
      LeavesFresh c s ms (initial rows listener junk) ∧
        LeavesFresh c s ms' (initial rows listener' junk') := by
  rw [← appearance_rejoins_iff hrun hhello, ← appearance_rejoins_iff hrun' hhello']
  constructor
  · rintro ⟨heq, hfresh⟩
    exact ⟨hfresh, heq.symm.trans hfresh⟩
  · rintro ⟨hfresh, hfresh'⟩
    exact ⟨hfresh.trans hfresh'.symm, hfresh⟩

private def sampleGreets : Answer := .sample none (.packet ⟨sampleHello, sampleHello_length_le⟩)

-- The server of the sample has gone, and behind its HELLO the test succeeds.
private def sampleRejoins (s : Fin 1) (p : World 1 → Bool) (w : World 1) : Bool :=
  !(w.servers s).connected && (w.greeting sampleGreets w.scan).any fun g ↦
    (returned (registerHello Crypto.clear sampleGreets.hello w.scan g.2.1)
      { w.receiving sampleGreets.recv w.scan with msg := g.2.2 }).any p

private theorem exists_rejoins {s : Fin 1} {p : World 1 → Bool} {w : World 1}
    (h : sampleRejoins s p w = true) :
    ∃ v, Rejoins Crypto.clear s sampleGreets w v ∧ p v = true := by
  obtain ⟨hgone, h⟩ := Bool.and_eq_true_iff.mp h
  cases hgreeting : w.greeting sampleGreets w.scan with
  | none =>
    rw [hgreeting] at h
    cases h
  | some g =>
    rw [hgreeting] at h
    obtain ⟨found, v, hrun, hp⟩ := exists_of_returned h
    have hs : g.1 = s := Subsingleton.elim _ _
    refine ⟨v, ⟨by simpa using hgone, g.2.1, g.2.2, found, ?_, hrun⟩, hp⟩
    rw [hgreeting, ← hs]

-- The server of the sample is about to say HELLO for the first time.
private def sampleNew : List Move := [.poll [3], .accepting 4, .skip, .poll [4], .skip]

-- It has said HELLO and sent a message, and is about to say HELLO on another socket.
private def sampleAgain (bytes : List UInt8) (h : bytes.length ≤ msgSize) : List Move :=
  sampleBound ++ [.receiving bytes h, .poll [3], .accepting 5]

-- A player comes and leaves, and the server quits.
private def sampleVisit : List UInt8 := [3, 7, 92, 110, 97, 109, 101, 92, 65, 0, 4, 7, 2]

private theorem sampleVisit_length_le : sampleVisit.length ≤ msgSize := by decide

private theorem sampleVisit_leaves :
    LeavesNothing [.connect 7 (ascii "\\name\\A"), .disconnect 7, .quit] where
  players i p hp := by
    by_cases hi : i = 7
    · simp only [hi, Command.entry, List.filterMap_cons, List.filterMap_nil, if_true,
        List.getLast?_cons_cons, List.getLast?_singleton, Option.mem_some_iff] at hp
      exact hp.symm
    · simp [Command.entry, hi] at hp
  playercount := rfl
  map _ hm := by cases hm
  pings := by simp [Command.isPing]

/-- A server starts on another socket as it has started before. -/
theorem starts_fresh_sample : ∃ v v' : World 1, (v.servers 0).connected = true ∧
    StartsFresh 0 v v' := by
  have h : (follow (step Crypto.clear) Unguarded sampleNew sampleStart).any
      (sampleRejoins 0 fun v ↦ (v.servers 0).connected) = true := by decide +kernel
  have h' : (follow (step Crypto.clear) Unguarded
      (sampleAgain sampleVisit sampleVisit_length_le) sampleStart).any
        (sampleRejoins 0 fun _ ↦ true) = true := by decide +kernel
  obtain ⟨w, hrun, hw⟩ := Run.exists_of_follow h
  obtain ⟨w', hrun', hw'⟩ := Run.exists_of_follow h'
  obtain ⟨v, hv, hc⟩ := exists_rejoins hw
  obtain ⟨v', hv', _⟩ := exists_rejoins hw'
  have hheard : heardIn Crypto.clear 0 sampleNew sampleStart = [] := by decide +kernel
  have hheard' : heardIn Crypto.clear 0 (sampleAgain sampleVisit sampleVisit_length_le)
      sampleStart = [.connect 7 (ascii "\\name\\A"), .disconnect 7, .quit] := by decide +kernel
  have hleft : LeavesFresh Crypto.clear 0 sampleNew sampleStart := by
    refine ⟨?_, by decide +kernel⟩
    rw [hheard]
    exact ⟨fun _ _ hp ↦ by simp at hp, rfl, fun _ hm ↦ by simp at hm, by simp⟩
  have hleft' : LeavesFresh Crypto.clear 0 (sampleAgain sampleVisit sampleVisit_length_le)
      sampleStart := by
    refine ⟨?_, by decide +kernel⟩
    rw [hheard']
    exact sampleVisit_leaves
  exact ⟨v, v', hc, (starts_fresh_iff Crypto.clear _ _ _ _ _ _ _ w w' v v' 0 _ hrun hrun' hv
    hv').mpr ⟨hleft, hleft'⟩⟩

/-- A player who was there when the server quit is still there when it comes back. -/
theorem starts_with_leftovers :
    ¬ ∀ (ms ms' : List Move) (w w' v v' : World 1) (s : Fin 1) (env : Answer),
      Run (step Crypto.clear) Unguarded ms sampleStart w →
      Run (step Crypto.clear) Unguarded ms' sampleStart w' →
      Rejoins Crypto.clear s env w v → Rejoins Crypto.clear s env w' v' → StartsFresh s v v' := by
  have h : (follow (step Crypto.clear) Unguarded sampleNew sampleStart).any
      (sampleRejoins 0 fun v ↦ (v.servers 0).playercount == 0) = true := by decide +kernel
  have h' : (follow (step Crypto.clear) Unguarded
      (sampleAgain [3, 7, 92, 110, 97, 109, 101, 92, 65, 0, 2] (by decide)) sampleStart).any
        (sampleRejoins 0 fun v ↦ (v.servers 0).playercount == 1) = true := by decide +kernel
  obtain ⟨w, hrun, hw⟩ := Run.exists_of_follow h
  obtain ⟨w', hrun', hw'⟩ := Run.exists_of_follow h'
  obtain ⟨v, hv, hzero⟩ := exists_rejoins hw
  obtain ⟨v', hv', hone⟩ := exists_rejoins hw'
  intro hall
  have hsame := (hall _ _ w w' v v' 0 _ hrun hrun' hv hv').1
  have hcount : (v.servers 0).playercount = (v'.servers 0).playercount :=
    congrArg (fun v : Appearance ↦ v.sight.table.playercount) hsame
  rw [beq_iff_eq.mp hzero, beq_iff_eq.mp hone] at hcount
  cases hcount

end Q2Admin
