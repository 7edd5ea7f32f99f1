import Q2Admin.Session.Frames
import Q2Admin.Session.Sockets
import Q2Admin.Loop.PollTable

/-!
# What is done with descriptors

Library `Q2Admin.Loop`. Source `server.c:317–343`, `server.c:384–415` and `server.c:592–660`. As
long as every HELLO for a registered server is answered, `recv` and `send` are called with
descriptors that are open, and so is `close`, exactly if no message closes its connection twice:
`descriptors_open`. `CloseConnection` does not clear `socket`, and what comes behind a QUIT or a
refused AUTH in a message still runs.
-/

namespace Q2Admin

open Exec

variable {N : Nat}

/-- Whatever is done with a descriptor by the events that use it is done while it is open; the
trace is newest first. -/
def OnOpen (uses : Event → Option Nat) : List Event → Prop
  | [] => True
  | e :: t => (∀ fd ∈ uses e, isOpen fd t = true) ∧ OnOpen uses t

instance decidableOnOpen (uses : Event → Option Nat) : (t : List Event) → Decidable (OnOpen uses t)
  | [] => isTrue trivial
  | e :: t =>
    have := decidableOnOpen uses t
    inferInstanceAs (Decidable ((∀ fd ∈ uses e, isOpen fd t = true) ∧ OnOpen uses t))

/-- The descriptor of a `recv` or a `send`. -/
def Event.talk : Event → Option Nat
  | .received fd | .sent fd _ _ => some fd
  | _ => none

/-- The descriptor of a `close`. -/
def Event.shut : Event → Option Nat
  | .closed fd => some fd
  | _ => none

section Uses

variable {uses : Event → Option Nat}

private theorem onOpen_cons_silent {e : Event} (he : uses e = none) {t : List Event} :
    OnOpen uses (e :: t) ↔ OnOpen uses t := by
  refine ⟨fun h ↦ h.2, fun h ↦ ⟨fun fd hfd ↦ ?_, h⟩⟩
  rw [he] at hfd
  cases hfd

private theorem onOpen_cons {e : Event} {fd : Nat} (he : uses e = some fd) {t : List Event} :
    OnOpen uses (e :: t) ↔ isOpen fd t = true ∧ OnOpen uses t := by
  refine and_congr_left fun _ ↦ ⟨fun h ↦ h fd he, fun h fd' hfd' ↦ ?_⟩
  rw [he] at hfd'
  cases hfd'
  exact h

private theorem onOpen_append_silent {l : List Event} (hl : ∀ e ∈ l, uses e = none)
    {t : List Event} :
    OnOpen uses (l ++ t) ↔ OnOpen uses t := by
  induction l with
  | nil => exact Iff.rfl
  | cons e l ih =>
    rw [List.cons_append, onOpen_cons_silent (hl e List.mem_cons_self)]
    exact ih fun e' he' ↦ hl e' (List.mem_cons_of_mem e he')

/-- For closes it is enough to look at the events that sessions are made of. -/
theorem onOpen_shut_filter (t : List Event) :
    OnOpen Event.shut (t.filter Event.isSession) ↔ OnOpen Event.shut t := by
  induction t with
  | nil => exact Iff.rfl
  | cons e t ih =>
    cases e with
    | closed fd =>
      rw [List.filter_cons_of_pos rfl, onOpen_cons rfl, onOpen_cons rfl, isOpen_filter, ih]
    | accepted _ | bound _ _ | verified _ _ =>
      rw [List.filter_cons_of_pos rfl, onOpen_cons_silent rfl, onOpen_cons_silent rfl, ih]
    | _ =>
      rw [List.filter_cons_of_neg Bool.false_ne_true, onOpen_cons_silent rfl, ih]

/-- What is open does not depend on events that sessions are not made of. -/
theorem isOpen_append_aside {l : List Event} (hl : ∀ e ∈ l, e.isSession = false) (fd : Nat)
    (t : List Event) : isOpen fd (l ++ t) = isOpen fd t := by
  have hnil : l.filter Event.isSession = [] :=
    List.filter_eq_nil_iff.mpr fun e he ↦ by simp [hl e he]
  rw [← isOpen_filter, List.filter_append, hnil, List.nil_append, isOpen_filter]

end Uses

instance : (e : Effect N) → Decidable e.Answered
  | .hello _ _ _ _ none => isFalse id
  | .hello _ _ _ _ (some _) | .idle | .accept _ | .hangUp _ _ | .reject _ | .peer _ _
  | .message _ _ _ => isTrue trivial

/-- How often an effect closes the connection that it is about. -/
def Effect.closes : Effect N → Nat
  | .hello _ _ _ _ (some ops) => ops.count .close
  | .message _ _ ops => ops.count .close
  | .idle | .accept _ | .peer _ false => 0
  | _ => 1

namespace Core

variable {k : Core N}

private theorem onOpen_grant (q2 : Fin N) :
    OnOpen Event.shut (k.grant q2).trace ↔ OnOpen Event.shut k.trace := onOpen_cons_silent rfl

private theorem onOpen_close (q2 : Fin N) : OnOpen Event.shut (k.close q2).trace ↔
    isOpen (k.records q2).socket k.trace = true ∧ OnOpen Event.shut k.trace := by
  rw [close_trace, onOpen_cons rfl]

private theorem onOpen_applyAll_closed (q2 : Fin N) (ops : List SessionOp)
    (h : isOpen (k.records q2).socket k.trace = false) :
    OnOpen Event.shut (k.applyAll q2 ops).trace ↔
      OnOpen Event.shut k.trace ∧ ops.count .close = 0 := by
  induction ops generalizing k with
  | nil => simp [applyAll]
  | cons op ops ih =>
    change OnOpen Event.shut ((k.apply q2 op).applyAll q2 ops).trace ↔ _
    cases op with
    | grant =>
      have hsame : isOpen ((k.grant q2).records q2).socket (k.grant q2).trace = false := by
        rw [grant_socket]
        exact h
      rw [List.count_cons_of_ne (by decide)]
      exact (ih hsame).trans (and_congr_left fun _ ↦ onOpen_grant q2)
    | close =>
      have hsame : isOpen ((k.close q2).records q2).socket (k.close q2).trace = false := by
        rw [close_socket, close_trace]
        exact if_pos rfl
      have hrest := ih hsame
      rw [onOpen_close, h] at hrest
      rw [List.count_cons_self]
      refine hrest.trans ⟨fun hno ↦ absurd hno.1.1 Bool.false_ne_true, fun hno ↦ by omega⟩

/-- The operations of one message close an open socket soundly if they do so at most once. -/
theorem onOpen_applyAll (q2 : Fin N) (ops : List SessionOp)
    (h : isOpen (k.records q2).socket k.trace = true) :
    OnOpen Event.shut (k.applyAll q2 ops).trace ↔
      OnOpen Event.shut k.trace ∧ ops.count .close ≤ 1 := by
  induction ops generalizing k with
  | nil => simp [applyAll]
  | cons op ops ih =>
    change OnOpen Event.shut ((k.apply q2 op).applyAll q2 ops).trace ↔ _
    cases op with
    | grant =>
      have hsame : isOpen ((k.grant q2).records q2).socket (k.grant q2).trace = true := by
        rw [grant_socket]
        exact h
      rw [List.count_cons_of_ne (by decide)]
      exact (ih hsame).trans (and_congr_left fun _ ↦ onOpen_grant q2)
    | close =>
      have hshut : isOpen ((k.close q2).records q2).socket (k.close q2).trace = false := by
        rw [close_socket, close_trace]
        exact if_pos rfl
      have hrest := onOpen_applyAll_closed q2 ops hshut
      rw [onOpen_close, h] at hrest
      rw [List.count_cons_self]
      refine hrest.trans ⟨fun hall ↦ ⟨hall.1.2, by omega⟩, fun hall ↦ ⟨⟨rfl, hall.1⟩, by omega⟩⟩

private theorem onOpen_reject {i : Nat} (h : isOpen (k.fds i) k.trace = true) :
    OnOpen Event.shut (k.reject i).trace ↔ OnOpen Event.shut k.trace := by
  have htrace : (k.reject i).trace = .closed (k.fds i) :: k.trace := (rebuilt_rebuild _).trace
  rw [htrace, onOpen_cons rfl]
  exact and_iff_right h

/-- From a tidy table an effect closes soundly if it closes its connection at most once. -/
theorem onOpen_run (h : k.Tidy) {e : Effect N} (he : e.Valid k) (hans : e.Answered) :
    OnOpen Event.shut (e.run k).trace ↔ OnOpen Event.shut k.trace ∧ e.closes ≤ 1 := by
  have hopen {i : Nat} (hi : k.InTable i) : isOpen (k.fds i) k.trace = true := h.alive i hi
  cases e with
  | idle => exact (and_iff_left (Nat.zero_le 1)).symm
  | accept fd =>
    exact (onOpen_cons_silent rfl).trans (and_iff_left (Nat.zero_le 1)).symm
  | hangUp q2 i =>
    have htrace : (k.hangUp q2 i).trace = .closed (k.fds i) :: k.trace := (rebuilt_rebuild _).trace
    change OnOpen Event.shut (k.hangUp q2 i).trace ↔ _
    rw [htrace, onOpen_cons rfl]
    exact (and_iff_right (hopen he.1)).trans (and_iff_left (Nat.le_refl 1)).symm
  | reject i =>
    exact (onOpen_reject (hopen he.1)).trans (and_iff_left (Nat.le_refl 1)).symm
  | peer i known =>
    cases known with
    | true => exact (onOpen_reject (hopen he.1)).trans (and_iff_left (Nat.le_refl 1)).symm
    | false =>
      change OnOpen Event.shut k.rebuild.trace ↔ _
      rw [(rebuilt_rebuild k).trace]
      exact (and_iff_left (Nat.zero_le 1)).symm
  | hello q2 i port maxclients answer =>
    cases answer with
    | some ops =>
      have hbound : isOpen ((k.bind q2 i port maxclients).records q2).socket
          (k.bind q2 i port maxclients).trace = true := by
        rw [bind_socket]
        exact hopen he.1
      refine (onOpen_applyAll q2 ops hbound).trans (and_congr_left fun _ ↦ ?_)
      exact onOpen_cons_silent rfl
    | none => exact hans.elim
  | message q2 i ops =>
    exact onOpen_applyAll q2 ops (h.apart.alive q2 (h.connected_of_index he.2 he.1.1))

end Core

/-- The table is tidy, no other server has the socket of this one, and what has been read and sent
was read and sent on open sockets. -/
structure World.Sound (w : World N) (q2 : Fin N) : Prop where
  tidy : w.core.Tidy
  alone : w.core.Alone q2
  talk : OnOpen Event.talk w.trace

section Talk

variable {c : Crypto} {q2 s : Fin N} {w w' : World N}

private theorem isOpen_slot (h : w.core.Tidy) {i : Nat} (hi : w.core.InTable i) :
    isOpen (w.sockets i).fd w.trace = true := by
  rw [← isOpen_filter]
  exact h.alive i hi

private theorem isOpen_wireOf (h : w.core.Tidy) (hc : (w.servers s).connected = true) :
    isOpen (w.wireOf s) w.trace = true := isOpen_slot h (h.slot s hc).1

-- What shows neither in the sessions nor by reading or sending.
private theorem World.Sound.frame (h : w.Sound q2) {l : List Event} (hcore : w'.core = w.core)
    (htrace : w'.trace = l ++ w.trace) (hl : ∀ e ∈ l, e.talk = none) : w'.Sound q2 where
  tidy := by
    rw [hcore]
    exact h.tidy
  alone := by
    rw [hcore]
    exact h.alone
  talk := by
    rw [htrace, onOpen_append_silent hl]
    exact h.talk

private theorem World.Sound.assign (h : w.Sound q2) (s : Fin N) {f : Q2Server → Q2Server}
    (hf : ∀ r, (f r).record = r.record) : (w.updateServer s f).Sound q2 :=
  h.frame (l := []) (core_assign w s hf) rfl nofun

private theorem talk_enciphering (w : World N) (s : Fin N) :
    ∀ e ∈ w.enciphering s, e.talk = none ∧ e.isSession = false := by
  unfold World.enciphering
  split
  · cases (w.servers s).connection.eCtx <;> simp [Event.talk, Event.isSession]
  · simp

private theorem World.Sound.posted (h : w.Sound q2) (hc : (w.servers s).connected = true)
    (plain wire : List UInt8) : (w.posted s plain wire).Sound q2 := by
  have hquiet := talk_enciphering w s
  have hcore := core_posted w s plain wire
  refine ⟨?_, ?_, (onOpen_cons rfl).mpr ⟨?_, (onOpen_append_silent fun e he ↦ ?_).mpr h.talk⟩⟩
  · rw [hcore]
    exact h.tidy
  · rw [hcore]
    exact h.alone
  · rw [isOpen_append_aside fun e he ↦ (hquiet e he).2]
    exact isOpen_wireOf h.tidy hc
  · exact (hquiet e he).1

private theorem core_enciphering (w : World N) (s : Fin N) :
    { w with trace := w.enciphering s ++ w.trace }.core = w.core := by
  have hnil : (w.enciphering s).filter Event.isSession = [] :=
    List.filter_eq_nil_iff.mpr fun e he ↦ by simp [(talk_enciphering w s e he).2]
  refine congrArg (fun t ↦ { w.core with trace := t }) ?_
  rw [List.filter_append, hnil]
  rfl

private theorem World.Sound.send (h : w.Sound q2) (s : Fin N) :
    (final (sendBuffer c s) w).Sound q2 := by
  cases hrun : (sendBuffer c s).run w with
  | ok u w' =>
    rw [final_of_ok hrun]
    rcases sendBuffer_cases hrun with ⟨_, rfl⟩ | ⟨hc, _, _, rfl⟩
    · exact h
    · exact h.posted hc _ _
  | error e w' =>
    rw [final_of_error hrun]
    rcases sendBuffer_error hrun with rfl | ⟨_, rfl⟩
    · exact h
    · exact h.frame (core_enciphering w s) rfl fun e he ↦ (talk_enciphering w s e he).1

private theorem World.Sound.moves {P : Fin N → Prop} {α : Type} {x : M N α} {a : α}
    (h : w.Sound q2) (hx : Moves (Change c q2 P False) x) (hrun : x.run w = .ok a w') :
    w'.Sound q2 := by
  have hfinal := hx.preserves (I := fun w ↦ w.Sound q2) (fun w w' hchange hw ↦ ?_) w h
  · rwa [final_of_ok hrun] at hfinal
  · cases hchange with
    | write _ m _ => exact hw.assign _ fun _ ↦ rfl
    | send _ => exact hw.send _
    | format strings index => exact hw.frame (l := []) rfl rfl nofun
    | ping count => exact hw.assign _ fun _ ↦ rfl
    | tell t => exact hw.assign _ fun _ ↦ rfl
    | check hs => exact hs.elim
    | close hs => exact hs.elim

private theorem World.Sound.close (h : w.Sound q2)
    (hrun : (closeConnection q2).run w = .ok () w') : w'.Sound q2 := by
  obtain ⟨w₁, h₁, hcore⟩ := core_closeConnection q2 w
  rw [h₁] at hrun
  cases hrun
  rw [closeConnection_run] at h₁
  have hreleased (cell : Cell) (handle : Option Nat) :
      ∀ e ∈ World.releasing q2 cell handle, e.talk = none := by
    cases handle <;> simp [World.releasing, Event.talk]
  refine ⟨?_, ?_, ?_⟩
  · rw [hcore]
    exact Core.tidy_close h.tidy h.alone
  · rw [hcore]
    exact Core.alone_close h.alone
  · rw [(removeServerSocket_frame h₁).1]
    refine (onOpen_cons_silent rfl).mpr ?_
    rw [onOpen_append_silent (hreleased _ _), onOpen_append_silent (hreleased _ _),
      onOpen_append_silent (hreleased _ _)]
    exact h.talk

private theorem World.Sound.exec {cmd : Command} (h : w.Sound q2)
    (hrun : (Q2Admin.exec c q2 cmd).run w = .ok () w') : w'.Sound q2 := by
  have hquiet (hsession : cmd.isSession = false) : w'.Sound q2 :=
    h.moves (moves_exec c q2 (P := fun _ ↦ True) trivial (fun _ _ ↦ trivial) fun hs ↦ by
      rw [hsession] at hs
      cases hs) hrun
  cases cmd with
  | auth cipher =>
    have htalk {w₁ : World N} (h : w₁.Sound q2)
        (hrun : (acceptAuth c q2).run w₁ = .ok () w') : w'.Sound q2 :=
      h.moves (moves_acceptAuth c q2 (P := fun _ ↦ True) trivial) hrun
    obtain ⟨b, w₁, h₁, hrun⟩ := run_bind_ok hrun
    obtain ⟨_, key, _, hw₁⟩ := checkAnswer_ok h₁
    have hused : (w.deciphered q2 key).Sound q2 :=
      h.frame (l := [.used q2 .key key.handle]) (core_unlogged w rfl) rfl (by simp [Event.talk])
    cases b with
    | true =>
      rw [if_pos rfl] at hw₁
      rw [hw₁] at hrun
      have hcore := core_granted (w.deciphered q2 key) q2
      refine htalk ⟨?_, ?_, ?_⟩ hrun
      · rw [hcore]
        exact Core.tidy_grant hused.tidy q2
      · rw [hcore]
        exact Core.alone_grant hused.alone
      · exact (onOpen_append_silent (l := [.verified _ _, .created _ _ _, .created _ _ _])
          (by simp [Event.talk])).mpr hused.talk
    | false =>
      rw [if_neg Bool.false_ne_true] at hw₁
      obtain ⟨_, w₂, hrefuse, hrun⟩ := run_bind_ok hrun
      obtain ⟨_, w₃, h₃, hrefuse⟩ := run_bind_ok hrefuse
      obtain ⟨_, w₄, h₄, hclose⟩ := run_bind_ok hrefuse
      rw [← hw₁] at hused
      have hwritten : w₃.Sound q2 := hused.moves (moves_onOut c q2 (P := fun _ ↦ True) trivial
        (lengthens_bind (lengthens_byte _) fun _ ↦
          lengthens_bind (lengthens_byte _) fun _ ↦ lengthens_byte_string _ _)) h₃
      have hsent : w₄.Sound q2 :=
        hwritten.moves (moves_sendBuffer c q2 (P := fun _ ↦ True) trivial) h₄
      exact htalk (hsent.close hclose) hrun
  | quit => exact h.close hrun
  | _ => exact hquiet rfl

private theorem World.Sound.execAll {cmds : List Command} (h : w.Sound q2)
    (hrun : (forM cmds (Q2Admin.exec c q2)).run w = .ok () w') : w'.Sound q2 := by
  induction cmds generalizing w with
  | nil =>
    cases hrun
    exact h
  | cons cmd cmds ih =>
    rw [List.forM_cons] at hrun
    obtain ⟨_, w₁, h₁, hrun⟩ := run_bind_ok hrun
    exact ih (h.exec h₁) hrun

private theorem talk_receiving (h : w.core.Tidy) (htalk : OnOpen Event.talk w.trace) (recv : Recv)
    {i : Nat} (hi : w.core.InTable i) : OnOpen Event.talk (w.receiving recv i).trace :=
  (onOpen_cons rfl).mpr ⟨isOpen_slot h hi, htalk⟩

private theorem talk_rebuild {l : List Event} (hl : ∀ e ∈ l, e.talk = none) {w₁ : World N}
    (hrun : removeServerSocket.run w₁ = .ok () w') (htrace : w₁.trace = l ++ w.trace)
    (htalk : OnOpen Event.talk w.trace) : OnOpen Event.talk w'.trace := by
  rw [(removeServerSocket_frame hrun).1, htrace, onOpen_append_silent hl]
  exact htalk

private theorem talk_turnAway {i : Nat} (hrun : (turnAway i).run w = .ok () w')
    (htalk : OnOpen Event.talk w.trace) : OnOpen Event.talk w'.trace := by
  rw [turnAway_run] at hrun
  exact talk_rebuild (l := [.closed (w.sockets i).fd]) (by simp [Event.talk]) hrun rfl htalk

private theorem talk_register {env : Answer} {i : Nat} {h : Hello} {m : MsgBuffer}
    {found : Option (Fin N)} (hw : w.core.Tidy) (hi : w.core.InTable i)
    (htalk : OnOpen Event.talk w.trace) (greeting : w.greeting env i = some (q2, h, m))
    (register : (registerHello c env.hello i h).run { w.receiving env.recv i with msg := m } =
      .ok found w') : OnOpen Event.talk w'.trace := by
  have hkey : World.serverOfKey { w.receiving env.recv i with msg := m } h.key = some q2 :=
    (greeting_some greeting).2
  obtain ⟨_, _, plain, rfl, _⟩ := registerHello_ok hkey register
  let w₁ : World N := { w.receiving env.recv i with msg := m }
  have hquiet := talk_enciphering (w₁.replying env.hello h i q2) q2
  have hwelcome (e : Event) (he : e ∈ ((w₁.servers q2).welcome env.hello h i (w₁.sockets i).fd
      w₁.nextHandle).welcoming env.hello h q2 w₁.nextHandle) :
      e.talk = none ∧ e.isSession = false := by
    rcases mem_welcoming he with ⟨_, rfl | rfl⟩ | ⟨rfl, _⟩ <;> exact ⟨rfl, rfl⟩
  have htrace := w₁.replying_trace env.hello h i q2
  refine (onOpen_cons rfl).mpr ⟨?_, ?_⟩
  · rw [isOpen_append_aside fun e he ↦ (hquiet e he).2, htrace,
      isOpen_append_aside fun e he ↦ (hwelcome e he).2, World.replying_wireOf]
    exact isOpen_slot hw hi
  · rw [onOpen_append_silent fun e he ↦ (hquiet e he).1, htrace,
      onOpen_append_silent fun e he ↦ (hwelcome e he).1]
    exact (onOpen_cons_silent rfl).mpr (talk_receiving hw htalk env.recv hi)

private theorem talk_turn {env : Answer} {i : Nat} (h : Turn c env i w w') (hw : w.core.Tidy)
    (hi : i < w.socketCount) (htalk : OnOpen Event.talk w.trace) :
    OnOpen Event.talk w'.trace := by
  have hslot (slot : w.Client i) : w.core.InTable i := slot.inTable hw.toWf hi
  have hreceiving (slot : w.Client i) : OnOpen Event.talk (w.receiving env.recv i).trace :=
    talk_receiving hw htalk env.recv (hslot slot)
  have huses {l t : List Event} (hl : Uses l) (ht : OnOpen Event.talk t) :
      OnOpen Event.talk (l ++ t) := by
    refine (onOpen_append_silent fun e he ↦ ?_).mpr ht
    rcases hl with rfl | ⟨_, _, _, rfl⟩
    · cases he
    · rw [List.mem_singleton.mp he]
      rfl
  cases h with
  | idle same =>
    rw [same]
    exact htalk
  | accept fd _ _ _ run =>
    cases run
    exact (onOpen_cons_silent rfl).mpr htalk
  | hangUp q2 slot _ _ run =>
    rw [hangUp_run] at run
    exact talk_rebuild (l := [.closed (w.sockets i).fd]) (by simp [Event.talk]) run rfl
      (hreceiving slot)
  | message q2 cmds m slot owner _ run =>
    have hq : (w.servers q2).index = i := getServer_some owner
    have hc : (w.servers q2).connected = true := hw.connected_of_index hq (hslot slot).1
    have hcore : World.core { w.receiving env.recv i with
        msg := m, trace := w.deciphering q2 ++ (w.receiving env.recv i).trace } = w.core :=
      (core_deciphering w q2 { w.receiving env.recv i with msg := m }).trans
        (core_receiving w env.recv i)
    have hstart : World.Sound { w.receiving env.recv i with
        msg := m, trace := w.deciphering q2 ++ (w.receiving env.recv i).trace } q2 := by
      refine ⟨?_, ?_, huses (w.uses_deciphering q2) (hreceiving slot)⟩
      · rw [hcore]
        exact hw
      · rw [hcore]
        exact hw.alone hc
    exact (hstart.execAll run).talk
  | peer request m slot _ _ run =>
    obtain ⟨_, w₁, h₁, run⟩ := run_bind_ok run
    rcases answerPeer_ok h₁ with ⟨_, rfl⟩ | ⟨_, _, m', _, rfl⟩
    · exact talk_rebuild (l := []) nofun run rfl (hreceiving slot)
    · rw [(removeServerSocket_frame run).1]
      refine (onOpen_cons_silent rfl).mpr ((onOpen_cons rfl).mpr ⟨?_, hreceiving slot⟩)
      exact isOpen_slot hw (hslot slot)
  | stranger m slot _ _ run => exact talk_turnAway run (hreceiving slot)
  | refused q2 h m w₁ slot _ greeting _ register run =>
    exact talk_turnAway run (talk_register hw (hslot slot) htalk greeting register)
  | hello q2 h m w₁ cmds m' slot owner greeting _ _ register run =>
    have htalk₁ := talk_register hw (hslot slot) htalk greeting register
    have hregister := core_register greeting register
    have hcore : World.core { w₁ with msg := m', trace := w₁.deciphering q2 ++ w₁.trace } =
        w.core.bind q2 i h.port h.maxClients :=
      (core_deciphering w₁ q2 { w₁ with msg := m' }).trans hregister
    have hbound : (w.core.bind q2 i h.port h.maxClients).Tidy :=
      Core.tidy_bind hw q2 h.port h.maxClients (hslot slot) (getServer_none owner)
    have hstart : World.Sound
        { w₁ with msg := m', trace := w₁.deciphering q2 ++ w₁.trace } q2 := by
      refine ⟨?_, ?_, huses (w₁.uses_deciphering q2) htalk₁⟩
      · rw [hcore]
        exact hbound
      · rw [hcore]
        exact hbound.alone (Core.bind_connected _ _ _ _ _)
    exact (hstart.execAll run).talk

end Talk

/-- The next step answers the HELLO of a registered server, if it serves one, and closes the
connection that it serves at most once. -/
def ClosingOnce (c : Crypto) (m : Move) (w : World N) : Prop :=
  Answering c m w ∧ (moveEffect c m w).closes ≤ 1

section Runs

variable {c : Crypto} {m : Move} {ms : List Move} {w w' : World N}

private theorem talk_step (hs : step c m w = some w') (hw : w.core.Tidy)
    (htalk : OnOpen Event.talk w.trace) : OnOpen Event.talk w'.trace := by
  cases m with
  | poll ready =>
    rw [step_poll hs]
    exact (onOpen_cons_silent rfl).mpr htalk
  | serve env =>
    obtain ⟨⟨hscan, _⟩, _⟩ := step_serve hs
    obtain ⟨w₁, hturn, rfl⟩ := step_turn hs
    have htalk₁ := talk_turn hturn hw hscan htalk
    exact htalk₁

private theorem shut_step (hs : step c m w = some w') (hw : w.core.Tidy)
    (hans : Answering c m w) :
    OnOpen Event.shut w'.trace ↔
      OnOpen Event.shut w.trace ∧ (moveEffect c m w).closes ≤ 1 := by
  have hrun := Core.onOpen_run hw (effect_valid hs hw.toWf) hans
  rw [← core_step hs] at hrun
  exact (onOpen_shut_filter _).symm.trans
    (hrun.trans (and_congr_left fun _ ↦ onOpen_shut_filter _))

private theorem run_open (hrun : Run (step c) (Answering c) ms w w') (hw : w.core.Tidy)
    (htalk : OnOpen Event.talk w.trace) :
    OnOpen Event.talk w'.trace ∧ (OnOpen Event.shut w'.trace ↔
      OnOpen Event.shut w.trace ∧ Run (step c) (ClosingOnce c) ms w w') := by
  induction hrun with
  | nil w => exact ⟨htalk, (and_iff_left (.nil w)).symm⟩
  | @cons m ms w w₁ w₂ hans hs _ ih =>
    have htidy : w₁.core.Tidy := by
      rw [core_step hs]
      exact Core.tidy_run hw (effect_valid hs hw.toWf) hans
    obtain ⟨htalk', hshut⟩ := ih htidy (talk_step hs hw htalk)
    refine ⟨htalk', hshut.trans ?_⟩
    rw [shut_step hs hw hans, and_assoc]
    refine and_congr_right fun _ ↦ ⟨fun ⟨honce, hrest⟩ ↦ .cons ⟨hans, honce⟩ hs hrest, ?_⟩
    rintro (_ | ⟨honce, hs', hrest⟩)
    rw [hs] at hs'
    cases hs'
    exact ⟨honce.2, hrest⟩

end Runs

/-- In a run in which every HELLO for a registered server is answered, everything that is read or
sent is read or sent on a socket that is open, and all sockets that are closed are open exactly if
no message closes its connection twice. -/
theorem descriptors_open {c : Crypto} {rows : Fin N → Row} {listener : Nat} {junk : Nat → PollFd}
    {ms : List Move} {w : World N}
    (hrun : Run (step c) (Answering c) ms (initial rows listener junk) w) :
    OnOpen Event.talk w.trace ∧
      (OnOpen Event.shut w.trace ↔
        Run (step c) (ClosingOnce c) ms (initial rows listener junk) w) := by
  obtain ⟨htalk, hshut⟩ := run_open hrun (tidy_initial rows listener junk) trivial
  exact ⟨htalk, hshut.trans (and_iff_right trivial)⟩

/-- The second of two QUITs in a message closes a socket that is not open any more. -/
theorem descriptors_open_sample :
    ∃ w : World 1, ¬ OnOpen Event.shut w.trace ∧ OnOpen Event.talk w.trace ∧
      ∃ ms, Run (step Crypto.clear) (Answering Crypto.clear) ms sampleStart w ∧
        ¬ Run (step Crypto.clear) (ClosingOnce Crypto.clear) ms sampleStart w := by
  have h : (follow (step Crypto.clear) (fun m w ↦ (moveEffect Crypto.clear m w).Answered)
      (sampleBound ++ [.receiving [2, 2] (by decide)]) sampleStart).any
        (fun w ↦ !decide (OnOpen Event.shut w.trace)) = true := by decide +kernel
  obtain ⟨w, hrun, hw⟩ := Run.exists_of_follow h
  have htwice : ¬ OnOpen Event.shut w.trace := by simpa using hw
  obtain ⟨htalk, hshut⟩ := descriptors_open hrun
  exact ⟨w, htwice, htalk, _, hrun, fun honce ↦ htwice (hshut.mpr honce)⟩

end Q2Admin
