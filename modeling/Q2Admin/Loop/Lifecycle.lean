import Q2Admin.Session.Custody
import Q2Admin.Loop.Trust

/-!
# The life cycle of crypto objects

Library `Q2Admin.Loop`. `CloseConnection` frees what the pointers of a server point to and leaves
the pointers, and a connection that merely ends frees nothing. `handles_sound` says for which
runs every object is freed at most once and before its pointer is overwritten, and is used only
while it is live and on the connection on which it was created.
-/

namespace Q2Admin

open Exec

variable {N : Nat}

instance (k : Custody) : (r : Request) → Decidable (k.Admits r)
  | .hello keyFile encrypted _ => inferInstanceAs (Decidable
    ((keyFile.creates = true → k.key ≠ .live ∧ k.key ≠ .lost) ∧
      (encrypted = true → k.contexts = .null)))
  | .auth true => inferInstanceAs (Decidable (_ ∧ _))
  | .auth false => inferInstanceAs (Decidable (_ ∧ _))
  | .quit => inferInstanceAs (Decidable (_ ∧ _))

instance decideAdmitsAll : (k : Custody) → (rs : List Request) → Decidable (k.AdmitsAll rs)
  | _, [] => inferInstanceAs (Decidable True)
  | k, r :: rs =>
    have := decideAdmitsAll (k.after r) rs
    inferInstanceAs (Decidable (k.Admits r ∧ (k.after r).AdmitsAll rs))

instance (c : Crypto) (m : Move) (p : World N × (Fin N → Custody)) : Decidable (Admitted c m p) :=
  inferInstanceAs (Decidable (∀ _, _))

/-- Custody only watches. -/
theorem run_stepCustody {c : Crypto} {G : Move → World N → Prop} {ms : List Move} {w w' : World N}
    {k : Fin N → Custody} : Run (step c) G ms w w' ↔
      ∃ k', Run (stepCustody c) (fun m p ↦ G m p.1) ms (w, k) (w', k') := by
  let watch (m : Move) (w : World N) (k : Fin N → Custody) (s : Fin N) : Custody :=
    (moveRequests c m w s).foldl Custody.after (k s)
  have hwatch : stepCustody c = watching (step c) watch := rfl
  rw [hwatch]
  exact run_watching

section Requests

variable {c : Crypto} {env : Answer} {i : Nat} {w : World N}

private theorem requests_of_silent (greeting : w.greeting env i = none)
    (heard : w.heard c env i = none) (s : Fin N) : w.requests c env i s = [] := by
  unfold World.requests
  rw [greeting, heard]
  rfl

/-- What comes for one server only. -/
theorem foldl_requests {q2 : Fin N} {rs : List Request} {k : Fin N → Custody}
    (h : ∀ s, w.requests c env i s = if s = q2 then rs else []) :
    (fun s ↦ (w.requests c env i s).foldl Custody.after (k s)) =
      Function.update k q2 (rs.foldl Custody.after (k q2)) := by
  funext s
  rw [h s]
  by_cases hs : s = q2
  · rw [hs, if_pos rfl, Function.update_self]
  · rw [if_neg hs, Function.update_of_ne hs]
    rfl

end Requests

section Turns

variable {c : Crypto} {env : Answer} {i : Nat} {w w' : World N} {k : Fin N → Custody}

private theorem kept_receiving (h : w.Kept k) (recv : Recv) (i : Nat) (m : MsgBuffer) :
    World.Kept { w.receiving recv i with msg := m } k :=
  h.frame (List.filterMap_cons_none rfl) rfl fun _ ↦ rfl

private theorem kept_turnAway (h : w.Kept k) (hrun : (turnAway i).run w = .ok () w') :
    w'.Kept k := by
  rw [turnAway_run] at hrun
  exact (h.log rfl).rebuild hrun

private theorem kept_hangUp {q2 : Fin N} (h : w.Kept k)
    (hrun : (hangUp (some q2) i).run w = .ok () w') : w'.Kept k := by
  rw [hangUp_run] at hrun
  have hdown : (w.updateServer q2 Q2Server.drop).Kept k :=
    h.down fun r ↦ show r.drop.grips = r.disconnect.grips from rfl
  exact (hdown.log rfl).rebuild hrun

private theorem kept_peer {request : UInt8} (h : w.Kept k)
    (hrun : (do answerPeer c i request; removeServerSocket).run w = .ok () w') : w'.Kept k := by
  obtain ⟨_, w₁, h₁, hrun⟩ := run_bind_ok hrun
  refine World.Kept.rebuild ?_ hrun
  rcases answerPeer_ok h₁ with ⟨_, rfl⟩ | ⟨_, _, m, _, rfl⟩
  · exact h
  · exact (h.log rfl).log rfl

private theorem kept_turn (hturn : Turn c env i w w') (hw : w.core.Wf) (hi : i < w.socketCount)
    (hadmits : ∀ s, (k s).AdmitsAll (w.requests c env i s)) (h : w.Kept k) :
    w'.Kept fun s ↦ (w.requests c env i s).foldl Custody.after (k s) := by
  have hreceived (m : MsgBuffer) := kept_receiving h env.recv i m
  have hquiet (greeting : w.greeting env i = none) (heard : w.heard c env i = none)
      (hkept : w'.Kept k) :
      w'.Kept fun s ↦ (w.requests c env i s).foldl Custody.after (k s) := by
    simp only [requests_of_silent greeting heard, List.foldl_nil]
    exact hkept
  cases hturn with
  | idle same slot =>
    obtain ⟨greeting, heard⟩ := silent_of_not_client c env slot
    rw [same] at hquiet ⊢
    exact hquiet greeting heard h
  | accept fd _ slot _ run =>
    obtain ⟨greeting, heard⟩ := silent_of_not_client c env fun hs ↦ hs.2 slot
    refine hquiet greeting heard ?_
    cases run
    exact (h.log (e := .accepted fd) rfl).frame rfl rfl fun _ ↦ rfl
  | hangUp q2 _ owner ended run =>
    exact hquiet (greeting_of_owner owner) (heard_of_ended owner ended)
      (kept_hangUp (hreceived _) run)
  | peer request m slot owner read run =>
    have greeting := greeting_of_peer slot owner read
    exact hquiet greeting (heard_of_stranger owner greeting) (kept_peer (hreceived m) run)
  | stranger m slot owner unknown run =>
    exact hquiet unknown (heard_of_stranger owner unknown) (kept_turnAway (hreceived m) run)
  | message q2 cmds m slot owner heard run =>
    have hrequests (s : Fin N) : w.requests c env i s =
        if s = q2 then cmds.filterMap (Command.request c (w.servers q2)) else [] := by
      unfold World.requests
      rw [greeting_of_owner owner, heard]
      dsimp only
      rw [judge_of_owner owner, List.nil_append]
    have hcmds := hadmits q2
    rw [hrequests, if_pos rfl] at hcmds
    rw [foldl_requests hrequests]
    have hc : (w.servers q2).connected = true :=
      hw.connected_of_index (getServer_some owner) (slot.inTable hw hi).1
    exact ((hreceived w.msg).deciphering hc m).execAll (.inl hc) rfl hcmds run
  | refused q2 hello m w₁ slot owner greeting silent register run =>
    have hrequests (s : Fin N) : w.requests c env i s =
        if s = q2 then
          [.hello env.hello.keyFile (hello.encrypted ≠ 0) (env.hello.answers hello.challenge)]
        else [] := by
      unfold World.requests
      rw [greeting, heard_of_silent owner greeting silent]
      exact List.append_nil _
    have hhello := hadmits q2
    rw [hrequests, if_pos rfl] at hhello
    rw [foldl_requests hrequests]
    exact kept_turnAway
      ((hreceived m).register (greeting_some greeting).2 hhello.1 register) run
  | hello q2 hello m w₁ cmds m' slot owner greeting answers heard register run =>
    let request : Request :=
      .hello env.hello.keyFile (hello.encrypted ≠ 0) (env.hello.answers hello.challenge)
    let judge := (w.servers q2).greeted env.hello hello
    have hrequests (s : Fin N) : w.requests c env i s =
        if s = q2 then request :: cmds.filterMap (Command.request c judge) else [] := by
      unfold World.requests
      rw [greeting, heard]
      dsimp only
      rw [judge_of_greeting greeting]
      split <;> rfl
    have hall := hadmits q2
    rw [hrequests, if_pos rfl] at hall
    rw [foldl_requests hrequests]
    have hkept := (hreceived m).register (greeting_some greeting).2 hall.1 register
    have hc : (w₁.servers q2).connected = true := by
      have hbind : ((w.core.bind q2 i hello.port hello.maxClients).records q2).connected = true :=
        Core.bind_connected ..
      rw [← core_register greeting register] at hbind
      exact hbind
    have hcred := congrArg Reception.credentials (reception_register greeting answers register)
    have hexec := (hkept.deciphering hc m').execAll (s := judge) (.inl hc) hcred
      (by rw [Function.update_self]; exact hall.2) run
    rwa [Function.update_idem, Function.update_self] at hexec

end Turns

private theorem kept_initial (rows : Fin N → Row) (listener : Nat) (junk : Nat → PollFd) :
    (initial rows listener junk).Kept fun _ ↦ .start :=
  ⟨trivial, fun _ _ hmem ↦ (List.not_mem_nil hmem).elim,
    fun _ ↦ ⟨⟨rfl, rfl⟩, rfl, rfl, rfl, rfl, rfl⟩⟩

private theorem kept_step {c : Crypto} {m : Move} {p p' : World N × (Fin N → Custody)}
    (hs : stepCustody c m p = some p') (hw : p.1.core.Wf) (hg : Admitted c m p)
    (h : p.1.Kept p.2) : p'.1.core.Wf ∧ p'.1.Kept p'.2 := by
  obtain ⟨w', hstep, rfl⟩ := Option.map_eq_some_iff.mp hs
  refine ⟨?_, ?_⟩
  · rw [core_step hstep]
    exact Core.wf_run hw (effect_valid hstep hw)
  cases m with
  | poll ready =>
    rw [step_poll hstep]
    exact h.frame (List.filterMap_cons_none rfl) rfl fun _ ↦ rfl
  | serve env =>
    obtain ⟨⟨hscan, _⟩, _⟩ := step_serve hstep
    obtain ⟨w₁, hturn, rfl⟩ := step_turn hstep
    exact (kept_turn hturn hw hscan hg h).frame rfl rfl fun _ ↦ rfl

/-- The objects that a connected server can be asked to use are there, and belong to its
connection. -/
structure World.Equipped (w : World N) (q2 : Fin N) (k : Custody) : Prop where
  key : k.key = .live → ∃ key, (w.servers q2).publickey = some key ∧
    w.held q2 .key = .live key.handle true
  contexts : (w.servers q2).secure = true → ∃ e d, (w.servers q2).connection.eCtx = some e ∧
    (w.servers q2).connection.dCtx = some d ∧ w.held q2 .eCtx = .live e true ∧
      w.held q2 .dCtx = .live d true

/-- What custody means is true at the end of a run in which every request can be taken. -/
theorem kept_run {c : Crypto} {rows : Fin N → Row} {listener : Nat} {junk : Nat → PollFd}
    {ms : List Move} {p : World N × (Fin N → Custody)}
    (hrun : Run (stepCustody c) (Admitted c) ms (initial rows listener junk, fun _ ↦ .start) p) :
    p.1.Kept p.2 := by
  have hinv := hrun.invariant (I := fun p ↦ p.1.core.Wf ∧ p.1.Kept p.2)
    (fun _ _ _ hg hs hp ↦ kept_step hs hp.1 hg hp.2)
    ⟨wf_initial rows listener junk, kept_initial rows listener junk⟩
  exact hinv.2

/-- In runs in which every request can be taken, crypto objects are created in pointers behind
which nothing is live, they are used while they are live and on the connection on which they
were created, and they are freed while they are live and at most once. -/
theorem handles_sound (c : Crypto) (rows : Fin N → Row) (listener : Nat) (junk : Nat → PollFd)
    (ms : List Move) (w : World N) (k : Fin N → Custody)
    (hrun : Run (stepCustody c) (Admitted c) ms
      (initial rows listener junk, fun _ ↦ .start) (w, k)) :
    HandleOp.Sound w.handleOps ∧ (w.handleOps.filterMap HandleOp.freed).Nodup ∧
      ∀ q2, (w.servers q2).connected = true → w.Equipped q2 (k q2) := by
  have hkept : w.Kept k := kept_run hrun
  refine ⟨hkept.sound, hkept.sound.freed_nodup, fun q2 hc ↦ ⟨fun hlive ↦ ?_, fun hs ↦ ?_⟩⟩
  · have hkey := (hkept.holds q2).key
    rw [hlive] at hkey
    obtain ⟨key, current, hsome, hheld, hcurrent⟩ := hkey
    rw [hcurrent hc] at hheld
    exact ⟨key, hsome, hheld⟩
  · exact contexts_of_secure (hkept.holds q2).contexts hc hs

-- A server is verified, it quits, and it is verified once more.
private def sampleReturn : List Move :=
  sampleSession ++ [.poll [4], .skip, .receiving [2] (by decide), .poll [3], .accepting 5,
    .receiving sampleHello sampleHello_length_le, .poll [5], .skip,
    .receiving sampleAuth (by decide)]

/-- A server is verified twice, and what it has used the first time is freed. -/
theorem handles_sound_sample :
    ∃ w : World 1, w.handleOps.filterMap HandleOp.freed = [1, 2, 0] ∧ w.nextHandle = 6 ∧
      HandleOp.Sound w.handleOps := by
  have h : (follow (stepCustody Crypto.clear) (Admitted Crypto.clear) sampleReturn
      (sampleStart, fun _ ↦ .start)).any
        (fun p ↦ decide (p.1.handleOps.filterMap HandleOp.freed = [1, 2, 0]) &&
          decide (p.1.nextHandle = 6)) = true := by decide +kernel
  obtain ⟨⟨w, k⟩, hrun, hw⟩ := Run.exists_of_follow h
  obtain ⟨hfreed, hnext⟩ := Bool.and_eq_true_iff.mp hw
  exact ⟨w, of_decide_eq_true hfreed, of_decide_eq_true hnext,
    (handles_sound _ _ _ _ _ w k hrun).1⟩

/-- A server that has been verified quits, says HELLO again and quits before its AUTH: the
contexts of its first connection are freed twice. -/
theorem contexts_freed_twice :
    ¬ ∀ (ms : List Move) (w : World 1), Run (step Crypto.clear) Unguarded ms sampleStart w →
      HandleOp.Sound w.handleOps := by
  have h : (follow (step Crypto.clear) Unguarded (sampleSession ++
      [.poll [4], .skip, .receiving [2] (by decide), .poll [3], .accepting 5,
        .receiving sampleHello sampleHello_length_le, .poll [5], .skip,
        .receiving [2] (by decide)]) sampleStart).any
          (fun w ↦ !decide (w.handleOps.filterMap HandleOp.freed).Nodup) = true := by
    decide +kernel
  obtain ⟨w, hrun, hw⟩ := Run.exists_of_follow h
  intro hall
  rw [Bool.not_eq_true', decide_eq_false_iff_not] at hw
  exact hw (hall _ w hrun).freed_nodup

end Q2Admin
