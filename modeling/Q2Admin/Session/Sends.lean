import Q2Admin.Session.Projection
import Q2Admin.Command.Table
import Q2Admin.Msg.Format

/-!
# What commands send

Library `Q2Admin.Session`. `World.sends` projects the trace to the calls of `send`. A
command other than an invitation sends on the socket in the slot of its own server only;
an invitation sends on the socket of every connected server.
-/

namespace Q2Admin

open Exec

variable {N : Nat} {α β ν : Type}

/-- The events in which bytes leave the process. -/
def Event.isSent : Event → Bool
  | .sent _ _ _ => true
  | _ => false

/-- What has been sent, newest first. -/
def World.sends (w : World N) : List Event := w.trace.filter Event.isSent

/-- The socket on which `SendBuffer` writes for a server. -/
def World.wireOf (w : World N) (q2 : Fin N) : Nat := (w.sockets (w.servers q2).index).fd

/-- The program sends nothing. -/
def Mute (x : M N α) : Prop := Keeps World.sends x

private theorem mute_look (v : World N → α) : Mute (look v) := fun _ ↦ rfl

private theorem mute_modifyServer (q2 : Fin N) (f : Q2Server → Q2Server) :
    Mute (modifyServer q2 f) :=
  fun _ ↦ rfl

/-- A writer sends nothing. -/
theorem mute_onOut (q2 : Fin N) (x : BufM α) : Mute (onOut q2 x) := keeps_zoom fun _ _ ↦ rfl

private theorem mute_logEvent {e : Event} (he : e.isSent = false) : Mute (logEvent e : M N Unit) :=
  keeps_modify fun w ↦ by
    change (e :: w.trace).filter Event.isSent = _
    rw [List.filter_cons_of_neg (by rw [he]; exact Bool.false_ne_true)]
    rfl

private theorem mute_createHandle (q2 : Fin N) (cell : Cell) : Mute (createHandle q2 cell) :=
  keeps_bind (mute_look _) fun _ ↦ keeps_bind (keeps_modify fun _ ↦ rfl) fun _ ↦
    keeps_bind (mute_logEvent rfl) fun _ ↦ keeps_pure _

private theorem mute_removeServerSocket : Mute (removeServerSocket : M N Unit) :=
  keeps_rebuild (fun _ _ _ ↦ rfl) (fun _ _ _ ↦ rfl) fun _ _ ↦ rfl

/-- `CloseConnection` sends nothing. -/
theorem mute_closeConnection (q2 : Fin N) : Mute (closeConnection q2) :=
  keeps_close (fun _ _ ↦ mute_logEvent rfl) (fun _ ↦ mute_logEvent rfl) (mute_modifyServer q2 _)
    mute_removeServerSocket

/-- Checking an answer sends nothing. -/
theorem mute_checkAnswer (c : Crypto) (q2 : Fin N) (cipher : List UInt8) :
    Mute (checkAnswer c q2 cipher) :=
  keeps_check c cipher (fun _ _ ↦ mute_logEvent rfl) (fun _ ↦ mute_logEvent rfl)
    (mute_createHandle q2)
    fun f _ ↦ mute_modifyServer q2 f

/-- Formatting keeps what does not show the buffers of `va`. -/
theorem keeps_va {v : World N → ν} (hv : ∀ (w : World N) (strings : Fin 8 → List UInt8)
      (index : UInt16), v { w with vaStrings := strings, vaIndex := index } = v w)
    (format : List Piece) : Keeps v (va format : M N CharPtr) := by
  refine keeps_bind (fun _ ↦ rfl) fun slot ↦ keeps_bind (keeps_modify fun w ↦ ?_) fun _ ↦ ?_
  · exact hv w w.vaStrings _
  · refine keeps_ite (keeps_throw _) (keeps_bind (keeps_modify fun w ↦ ?_) fun _ ↦ keeps_pure _)
    exact hv w _ w.vaIndex

/-- Formatting the line of a server keeps what does not depend on the buffers of `va`. -/
theorem keeps_teleportServer {v : World N → ν} (hv : ∀ (w : World N)
      (strings : Fin 8 → List UInt8) (index : UInt16),
      v { w with vaStrings := strings, vaIndex := index } = v w) (str : CharPtr) (q2 : Fin N) :
    Keeps v (teleportServer str q2) := by
  refine keeps_bind (fun _ ↦ rfl) fun s ↦
    keeps_ite (keeps_pure _) (keeps_bind ?_ fun _ ↦ keeps_ite (keeps_throw _) (keeps_va hv _))
  exact keeps_foldlM (fun players i _ ↦ keeps_bind (fun _ ↦ rfl) fun _ ↦
    keeps_bind (keeps_va hv _) fun _ ↦ keeps_bind (fun _ ↦ rfl) fun _ ↦
      keeps_ite (keeps_throw _) (keeps_pure _)) []

/-- Listing the servers keeps what does not depend on the buffers of `va`. -/
theorem keeps_buildTeleportServers {v : World N → ν} (hv : ∀ (w : World N)
      (strings : Fin 8 → List UInt8) (index : UInt16),
      v { w with vaStrings := strings, vaIndex := index } = v w) :
    Keeps v (buildTeleportServers : M N CharPtr) :=
  keeps_foldlM (fun str q2 _ ↦ keeps_teleportServer hv str q2) _

/-- The state after a string has been formatted into the next buffer of `va`. -/
def World.formatted (w : World N) (format : List Piece) : World N :=
  { w with
    vaStrings := Function.update w.vaStrings w.vaSlot
      ((format.flatMap (Piece.print w.vaStrings)).take (maxStringChars - 1))
    vaIndex := w.vaIndex + 1 }

/-- `va` returns unless an argument is the buffer that it writes. -/
theorem va_run {format : List Piece} {w : World N} (h : .str (.ring w.vaSlot) ∉ format) :
    (va format).run w = .ok (.ring w.vaSlot) (w.formatted format) := by
  have hslot : (look World.vaSlot).run w = .ok w.vaSlot w := rfl
  have hnext : (modify fun w : World N ↦ { w with vaIndex := w.vaIndex + 1 } : M N _).run w =
      .ok () { w with vaIndex := w.vaIndex + 1 } := rfl
  unfold va
  rw [run_bind_of_ok hslot, run_bind_of_ok hnext, if_neg h]
  rfl

private theorem mute_va (format : List Piece) : Mute (va format : M N CharPtr) :=
  keeps_va (fun _ _ _ ↦ rfl) format

/-- Listing the servers sends nothing. -/
theorem mute_buildTeleportServers : Mute (buildTeleportServers : M N CharPtr) :=
  keeps_buildTeleportServers fun _ _ _ ↦ rfl

/-- Writing a text for a client sends nothing. -/
theorem mute_clientText (q2 : Fin N) (cl type : UInt8) (text : CharPtr) :
    Mute (clientText q2 cl type text) :=
  keeps_bind (mute_look _) fun _ ↦ mute_onOut q2 _

/-- Writing to a server whose buffer has room. -/
theorem onOut_run {q2 : Fin N} {x : BufM Unit} {e bs : List UInt8} (hx : Writes x e) {w : World N}
    (hm : (w.servers q2).msg = .ofBytes bs) (hroom : bs.length + e.length ≤ msgSize) :
    (onOut q2 x).run w =
      .ok () (w.updateServer q2 fun s ↦ { s with msg := .ofBytes (bs ++ e) }) := by
  have hrun := hx bs hroom
  rw [← hm] at hrun
  exact run_zoom_of_ok hrun

/-- The use of the context that enciphers the traffic of a server, if it is enciphered. -/
def World.enciphering (w : World N) (q2 : Fin N) : List Event :=
  if (w.servers q2).secure then
    ((w.servers q2).connection.eCtx.map (.used q2 .eCtx)).toList
  else []

/-- What goes on the wire for a message to a server. -/
def Q2Server.wire (c : Crypto) (s : Q2Server) (plain : List UInt8) : List UInt8 :=
  if s.secure then c.aesEncrypt s.connection.aeskey s.connection.iv plain else plain

/-- A record with the message `m` in its buffer. -/
def Q2Server.hold (m : MsgBuffer) (s : Q2Server) : Q2Server := { s with msg := m }

/-- The state after a message to a server has been sent. -/
def World.posted (w : World N) (q2 : Fin N) (plain wire : List UInt8) : World N :=
  { w.updateServer q2 (Q2Server.hold .zero) with
    trace := .sent (w.wireOf q2) plain wire :: (w.enciphering q2 ++ w.trace) }

/-- The buffer of a server that has been sent its message is empty. -/
@[simp] theorem World.posted_self (w : World N) (q2 : Fin N) (plain wire : List UInt8) :
    (w.posted q2 plain wire).servers q2 = (w.servers q2).hold .zero :=
  w.updateServer_self q2 _

/-- Other servers keep what is in their buffers. -/
@[simp] theorem World.posted_of_ne (w : World N) {q2 s : Fin N} (plain wire : List UInt8)
    (h : s ≠ q2) : (w.posted q2 plain wire).servers s = w.servers s :=
  w.updateServer_of_ne _ h

/-- Enciphering sends nothing. -/
theorem World.enciphering_sends (w : World N) (q2 : Fin N) :
    (w.enciphering q2 ++ w.trace).filter Event.isSent = w.sends := by
  have huse : (w.enciphering q2).filter Event.isSent = [] := by
    unfold World.enciphering
    cases (w.servers q2).connection.eCtx <;> cases (w.servers q2).secure <;> rfl
  rw [List.filter_append, huse]
  rfl

/-- Only the message is new in the trace. -/
theorem World.posted_sends (w : World N) (q2 : Fin N) (plain wire : List UInt8) :
    (w.posted q2 plain wire).sends = .sent (w.wireOf q2) plain wire :: w.sends := by
  change (Event.sent _ _ _ :: (w.enciphering q2 ++ w.trace)).filter Event.isSent = _
  rw [List.filter_cons_of_pos rfl, World.enciphering_sends]

/-- A message does not show in the sessions. -/
theorem core_posted (w : World N) (q2 : Fin N) (plain wire : List UInt8) :
    (w.posted q2 plain wire).core = w.core := by
  have huse : (w.enciphering q2).filter Event.isSession = [] := by
    unfold World.enciphering
    cases (w.servers q2).connection.eCtx <;> cases (w.servers q2).secure <;> rfl
  have htrace : (Event.sent (w.wireOf q2) plain wire ::
      (w.enciphering q2 ++ w.trace)).filter Event.isSession =
        w.trace.filter Event.isSession := by
    rw [List.filter_cons_of_neg Bool.false_ne_true, List.filter_append, huse]
    rfl
  refine (congrArg (fun t ↦ { (w.updateServer q2 (Q2Server.hold .zero)).core with trace := t })
    htrace).trans ?_
  exact core_assign w q2 fun _ ↦ rfl

/-- The state in which the message `m` is in the buffer of a server. -/
def World.holding (w : World N) (q2 : Fin N) (m : MsgBuffer) : World N :=
  w.updateServer q2 (Q2Server.hold m)

/-- The server holds the buffer that it has been given. -/
@[simp] theorem World.holding_self (w : World N) (q2 : Fin N) (m : MsgBuffer) :
    (w.holding q2 m).servers q2 = (w.servers q2).hold m :=
  w.updateServer_self q2 _

/-- The second one of two buffers stays. -/
theorem World.holding_holding (w : World N) (q2 : Fin N) (m m' : MsgBuffer) :
    (w.holding q2 m).holding q2 m' = w.holding q2 m' := w.updateServer_updateServer q2 _ _

/-- What is in the buffers does not show in the sessions. -/
theorem core_holding (w : World N) (q2 : Fin N) (m : MsgBuffer) :
    (w.holding q2 m).core = w.core := core_assign w q2 fun _ ↦ rfl

/-- What has been in the buffer of a server does not matter once it has been sent. -/
theorem World.holding_posted (w : World N) (q2 : Fin N) (m : MsgBuffer) (plain wire : List UInt8) :
    (w.holding q2 m).posted q2 plain wire = w.posted q2 plain wire := by
  have hwire : (w.holding q2 m).wireOf q2 = w.wireOf q2 := by
    unfold World.wireOf
    rw [World.holding_self]
    rfl
  have hcipher : (w.holding q2 m).enciphering q2 = w.enciphering q2 := by
    unfold World.enciphering
    rw [World.holding_self]
    rfl
  unfold World.posted
  rw [hwire, hcipher]
  unfold World.holding
  rw [World.updateServer_updateServer]
  rfl

-- Without a cipher, or with a context and a ciphertext that fits the work buffer.
private theorem wireForm_run {c : Crypto} {q2 : Fin N} {plain : List UInt8} {w : World N}
    (hctx : (w.servers q2).secure = true → (w.servers q2).connection.eCtx ≠ none)
    (hfits : (w.servers q2).secure = true → 16 * (plain.length / 16 + 1) ≤ msgSize) :
    (wireForm c q2 plain).run w = .ok ((w.servers q2).wire c plain)
      { w with trace := w.enciphering q2 ++ w.trace } := by
  have hserver : (server q2).run w = .ok (w.servers q2) w := rfl
  unfold wireForm World.enciphering Q2Server.wire
  rw [run_bind_of_ok hserver]
  cases hs : (w.servers q2).secure with
  | false => rfl
  | true =>
    unfold symmetricEncrypt
    rw [if_pos rfl, if_pos rfl, if_pos rfl, run_bind_of_ok hserver]
    cases he : (w.servers q2).connection.eCtx with
    | none => exact absurd he (hctx hs)
    | some h =>
      have hused : (logEvent (.used q2 .eCtx h)).run w =
          .ok () { w with trace := .used q2 .eCtx h :: w.trace } := rfl
      have hlen := c.aesEncrypt_length (w.servers q2).connection.aeskey
        (w.servers q2).connection.iv plain
      have hle := hfits hs
      dsimp only
      rw [run_bind_of_ok hused, if_neg (by omega)]
      rfl

private theorem wireForm_overrun {c : Crypto} {q2 : Fin N} {plain : List UInt8} {w : World N}
    (hs : (w.servers q2).secure = true) (hctx : (w.servers q2).connection.eCtx ≠ none)
    (hlong : msgSize < 16 * (plain.length / 16 + 1)) :
    (wireForm c q2 plain).run w = .error .overwrite
      { w with trace := w.enciphering q2 ++ w.trace } := by
  have hserver : (server q2).run w = .ok (w.servers q2) w := rfl
  obtain ⟨e, he⟩ := Option.ne_none_iff_exists'.mp hctx
  have hused : (logEvent (.used q2 .eCtx e)).run w =
      .ok () { w with trace := .used q2 .eCtx e :: w.trace } := rfl
  have hlen := c.aesEncrypt_length (w.servers q2).connection.aeskey
    (w.servers q2).connection.iv plain
  unfold wireForm World.enciphering symmetricEncrypt
  rw [run_bind_of_ok hserver, if_pos hs, if_pos hs, run_bind_of_ok hserver, he]
  dsimp only
  rw [run_bind_of_ok hused, if_pos (by omega)]
  rfl

private theorem wireForm_null {c : Crypto} {q2 : Fin N} {plain : List UInt8} {w : World N}
    (hs : (w.servers q2).secure = true) (hctx : (w.servers q2).connection.eCtx = none) :
    (wireForm c q2 plain).run w = .error .nullDeref w := by
  have hserver : (server q2).run w = .ok (w.servers q2) w := rfl
  unfold wireForm symmetricEncrypt
  rw [run_bind_of_ok hserver, if_pos hs, run_bind_of_ok hserver, hctx]
  rfl

private theorem wireForm_cases (c : Crypto) (q2 : Fin N) (plain : List UInt8) (w : World N) :
    (((w.servers q2).secure = true → (w.servers q2).connection.eCtx ≠ none) ∧
      (wireForm c q2 plain).run w = .ok ((w.servers q2).wire c plain)
        { w with trace := w.enciphering q2 ++ w.trace }) ∨
    (wireForm c q2 plain).run w = .error .nullDeref w ∨
    (wireForm c q2 plain).run w = .error .overwrite
      { w with trace := w.enciphering q2 ++ w.trace } := by
  cases hs : (w.servers q2).secure with
  | false =>
    have hplain {p : Prop} (h : (w.servers q2).secure = true) : p := by
      rw [hs] at h
      cases h
    exact .inl ⟨nofun, wireForm_run hplain hplain⟩
  | true =>
    by_cases hctx : (w.servers q2).connection.eCtx = none
    · exact .inr (.inl (wireForm_null hs hctx))
    · by_cases hfits : 16 * (plain.length / 16 + 1) ≤ msgSize
      · exact .inl ⟨fun _ ↦ hctx, wireForm_run (fun _ ↦ hctx) fun _ ↦ hfits⟩
      · exact .inr (.inr (wireForm_overrun hs hctx (Nat.lt_of_not_le hfits)))

/-- Nothing is sent to a server that is not connected. -/
theorem sendBuffer_idle (c : Crypto) {q2 : Fin N} {w : World N}
    (hc : (w.servers q2).connected = false) : (sendBuffer c q2).run w = .ok () w := by
  have hserver : (server q2).run w = .ok (w.servers q2) w := rfl
  unfold sendBuffer
  rw [run_bind_of_ok hserver, if_pos (by simp [hc])]
  rfl

/-- Nothing is sent from an empty buffer. -/
theorem sendBuffer_empty (c : Crypto) {q2 : Fin N} {w : World N}
    (hl : (w.servers q2).msg.length = 0) : (sendBuffer c q2).run w = .ok () w := by
  have hserver : (server q2).run w = .ok (w.servers q2) w := rfl
  unfold sendBuffer
  rw [run_bind_of_ok hserver]
  by_cases hc : (w.servers q2).connected = true
  · rw [if_neg (by simp [hc]), if_pos hl]
    rfl
  · rw [if_pos (by simp [hc])]
    rfl

private theorem sendBuffer_wire {c : Crypto} {q2 : Fin N} {w : World N}
    (hc : (w.servers q2).connected = true) (hl : (w.servers q2).msg.length ≠ 0) :
    (sendBuffer c q2).run w = (do
      let wire ← wireForm c q2 (w.servers q2).msg.contents
      let p ← look fun v ↦ v.sockets (w.servers q2).index
      logEvent (.sent p.fd (w.servers q2).msg.contents wire)
      modifyServer q2 fun s ↦ { s with msg := .zero }).run w := by
  have hserver : (server q2).run w = .ok (w.servers q2) w := rfl
  unfold sendBuffer
  rw [run_bind_of_ok hserver, if_neg (by simp [hc]), if_neg hl]

/-- A call of `SendBuffer` that returns has done nothing, or it has sent what was in the buffer
of a connected server to the socket in its slot and cleared the buffer. -/
theorem sendBuffer_cases {c : Crypto} {q2 : Fin N} {w w' : World N}
    (h : (sendBuffer c q2).run w = .ok () w') :
    (((w.servers q2).connected = false ∨ (w.servers q2).msg.length = 0) ∧ w' = w) ∨
    ((w.servers q2).connected = true ∧ (w.servers q2).msg.length ≠ 0 ∧
      ((w.servers q2).secure = true → (w.servers q2).connection.eCtx ≠ none) ∧
      w' = w.posted q2 (w.servers q2).msg.contents
        ((w.servers q2).wire c (w.servers q2).msg.contents)) := by
  cases hc : (w.servers q2).connected with
  | false =>
    rw [sendBuffer_idle c hc] at h
    cases h
    exact .inl ⟨.inl rfl, rfl⟩
  | true =>
    by_cases hl : (w.servers q2).msg.length = 0
    · rw [sendBuffer_empty c hl] at h
      cases h
      exact .inl ⟨.inr hl, rfl⟩
    · rw [sendBuffer_wire hc hl] at h
      rcases wireForm_cases c q2 (w.servers q2).msg.contents w with ⟨hctx, hx⟩ | hx | hx
      · rw [run_bind_of_ok hx] at h
        cases h
        exact .inr ⟨rfl, hl, hctx, rfl⟩
      · rw [run_bind_of_error hx] at h
        cases h
      · rw [run_bind_of_error hx] at h
        cases h

/-- A buffer with something in it is sent to the socket in the slot of a connected server. -/
theorem sendBuffer_ok {c : Crypto} {q2 : Fin N} {w w' : World N}
    (h : (sendBuffer c q2).run w = .ok () w') :
    (((w.servers q2).connected = false ∨ (w.servers q2).msg.length = 0) ∧ w' = w) ∨
    ((w.servers q2).connected = true ∧ (w.servers q2).msg.length ≠ 0 ∧
      ∃ wire, w'.sends =
        .sent (w.wireOf q2) (w.servers q2).msg.contents wire :: w.sends) := by
  rcases sendBuffer_cases h with hsame | ⟨hc, hl, _, rfl⟩
  · exact .inl hsame
  · exact .inr ⟨hc, hl, _, w.posted_sends q2 _ _⟩

/-- The buffer of a connected server is sent, if its context exists and its ciphertext fits the
work buffer. -/
theorem sendBuffer_posted (c : Crypto) {q2 : Fin N} {w : World N}
    (hc : (w.servers q2).connected = true) (hl : (w.servers q2).msg.length ≠ 0)
    (hctx : (w.servers q2).secure = true → (w.servers q2).connection.eCtx ≠ none)
    (hfits : (w.servers q2).secure = true →
      16 * ((w.servers q2).msg.contents.length / 16 + 1) ≤ msgSize) :
    (sendBuffer c q2).run w = .ok () (w.posted q2 (w.servers q2).msg.contents
      ((w.servers q2).wire c (w.servers q2).msg.contents)) := by
  rw [sendBuffer_wire hc hl, run_bind_of_ok (wireForm_run hctx hfits)]
  rfl

/-- What is too long for the work buffer when it is enciphered is not sent. -/
theorem sendBuffer_overrun (c : Crypto) {q2 : Fin N} {w : World N}
    (hc : (w.servers q2).connected = true) (hl : (w.servers q2).msg.length ≠ 0)
    (hs : (w.servers q2).secure = true) (hctx : (w.servers q2).connection.eCtx ≠ none)
    (hlong : msgSize < 16 * ((w.servers q2).msg.contents.length / 16 + 1)) :
    ¬ Returns (sendBuffer c q2) w := by
  rw [returns_congr (sendBuffer_wire hc hl)]
  exact fun h ↦ not_returns (wireForm_overrun hs hctx hlong) h.of_bind

/-- Without encryption the buffer of a connected server is sent as it is. -/
theorem sendBuffer_run (c : Crypto) {q2 : Fin N} {w : World N}
    (hc : (w.servers q2).connected = true) (hs : (w.servers q2).secure = false)
    (hl : (w.servers q2).msg.length ≠ 0) :
    (sendBuffer c q2).run w = .ok ()
      (World.updateServer
        { w with
          trace := .sent (w.wireOf q2) (w.servers q2).msg.contents (w.servers q2).msg.contents ::
            w.trace } q2 fun s ↦ { s with msg := .zero }) := by
  have hno : (w.servers q2).secure ≠ true := by
    rw [hs]
    exact Bool.false_ne_true
  rw [sendBuffer_posted c hc hl (fun h ↦ absurd h hno) fun h ↦ absurd h hno]
  unfold Q2Server.wire World.posted World.enciphering
  rw [if_neg hno, if_neg hno]
  rfl

/-- A writer that returns has written. -/
theorem onOut_ok {q2 : Fin N} {x : BufM Unit} {e : List UInt8} {w w' : World N}
    (hx : Appends x e) (h : (onOut q2 x).run w = .ok () w') :
    ∃ m, Written (w.servers q2).msg e m ∧ w' = w.holding q2 m := by
  unfold onOut at h
  rw [run_zoom] at h
  split at h
  · next u m hm =>
    cases h
    exact ⟨m, hx _ _ hm, rfl⟩
  · cases h

/-- What has been written to a connected server is sent. -/
theorem sendBuffer_holding {c : Crypto} {q2 : Fin N} {e : List UInt8} {m : MsgBuffer}
    {w w' : World N} (hm : Written (w.servers q2).msg e m) (he : 0 < e.length)
    (hc : (w.servers q2).connected = true)
    (h : (sendBuffer c q2).run (w.holding q2 m) = .ok () w') :
    ∃ plain, w' = w.posted q2 plain ((w.servers q2).wire c plain) ∧
      ((w.servers q2).msg = .zero → plain = e) := by
  have hlen : m.length ≠ 0 := by
    rw [hm.length]
    omega
  have hcases := sendBuffer_cases h
  rw [World.holding_self] at hcases
  rcases hcases with ⟨hno | hno, _⟩ | ⟨_, _, _, hw⟩
  · cases hc.symm.trans hno
  · exact absurd hno hlen
  · rw [World.holding_posted] at hw
    refine ⟨m.contents, hw, fun hzero ↦ ?_⟩
    rw [hzero] at hm
    exact hm.contents

/-- A message that is written to a connected server and sent. -/
theorem post_ok {c : Crypto} {q2 : Fin N} {x : BufM Unit} {e : List UInt8} {w w' : World N}
    (hx : Appends x e) (he : 0 < e.length) (hc : (w.servers q2).connected = true)
    (h : (do onOut q2 x; sendBuffer c q2).run w = .ok () w') :
    ∃ plain, w' = w.posted q2 plain ((w.servers q2).wire c plain) ∧
      ((w.servers q2).msg = .zero → plain = e) := by
  obtain ⟨_, w₁, h₁, h⟩ := run_bind_ok h
  obtain ⟨m, hm, rfl⟩ := onOut_ok hx h₁
  exact sendBuffer_holding hm he hc h

/-- The message of an error. -/
def errorBytes (id error : UInt8) (text : List UInt8) : List UInt8 :=
  [scmdError] ++ ([id] ++ ([error] ++ (text ++ [0])))

/-- `SendError` posts the error, by itself if nothing has waited. -/
theorem sendError_ok {c : Crypto} {q2 : Fin N} {error id : UInt8} {text : List UInt8}
    {w w' : World N} (hc : (w.servers q2).connected = true)
    (h : (sendError c q2 error id text).run w = .ok () w') :
    ∃ plain, w' = w.posted q2 plain ((w.servers q2).wire c plain) ∧
      ((w.servers q2).msg = .zero → plain = errorBytes id error text) :=
  post_ok (appends_bind (appends_byte scmdError) (appends_bind (appends_byte id)
    (appends_bind (appends_byte error) (appends_string text)))) (Nat.succ_pos _) hc h

/-- The message of a text for one player. -/
def sayClientBytes (clientId level : UInt8) (text : List UInt8) : List UInt8 :=
  [scmdSayClient] ++ ([clientId] ++ ([level] ++ (text ++ [0])))

/-- A text for a player is written behind what is in the buffer. -/
theorem clientText_ok {q2 : Fin N} {clientId level : UInt8} {text : CharPtr} {w w' : World N}
    (h : (clientText q2 clientId level text).run w = .ok () w') :
    ∃ m, Written (w.servers q2).msg (sayClientBytes clientId level (text.deref w.vaStrings)) m ∧
      w' = w.holding q2 m := by
  obtain ⟨t, w₁, h₁, h⟩ := run_bind_ok h
  obtain ⟨rfl, rfl⟩ := look_ok h₁
  exact onOut_ok (appends_bind (appends_byte scmdSayClient)
    (appends_bind (appends_byte clientId) (appends_bind (appends_byte level)
      (appends_string _)))) h

/-- A call of `SendBuffer` that faults has done nothing, or only enciphered. -/
theorem sendBuffer_error {c : Crypto} {q2 : Fin N} {e : Fault} {w w' : World N}
    (h : (sendBuffer c q2).run w = .error e w') :
    w' = w ∨ ((w.servers q2).connected = true ∧
      w' = { w with trace := w.enciphering q2 ++ w.trace }) := by
  cases hc : (w.servers q2).connected with
  | false =>
    rw [sendBuffer_idle c hc] at h
    cases h
  | true =>
    by_cases hl : (w.servers q2).msg.length = 0
    · rw [sendBuffer_empty c hl] at h
      cases h
    · rw [sendBuffer_wire hc hl] at h
      rcases wireForm_cases c q2 (w.servers q2).msg.contents w with ⟨_, hx⟩ | hx | hx
      · rw [run_bind_of_ok hx] at h
        cases h
      · rw [run_bind_of_error hx] at h
        cases h
        exact .inl rfl
      · rw [run_bind_of_error hx] at h
        cases h
        exact .inr ⟨rfl, rfl⟩

/-- The descriptor on which a server is sent to depends on the sessions only. -/
theorem wireOf_of_core {w w' : World N} (h : w'.core = w.core) (q2 : Fin N) :
    w'.wireOf q2 = w.wireOf q2 :=
  congrArg (fun k : Core N ↦ k.fds (k.records q2).index) h

/-- Who is connected depends on the sessions only. -/
theorem connected_of_core {w w' : World N} (h : w'.core = w.core) (q2 : Fin N) :
    (w'.servers q2).connected = (w.servers q2).connected :=
  congrArg (fun k : Core N ↦ (k.records q2).connected) h

/-- The events that a run has added are messages to a connected server in its slot. -/
def SendsTo (q2 : Fin N) (w w' : World N) : Prop :=
  ∃ l, w'.sends = l ++ w.sends ∧
    ∀ e ∈ l, (w.servers q2).connected = true ∧ ∃ plain wire, e = .sent (w.wireOf q2) plain wire

private theorem sendsTo_of_mute {x : M N α} (h : Mute x) (q2 : Fin N) {w w' : World N} {a : α}
    (hx : x.run w = .ok a w') : SendsTo q2 w w' :=
  ⟨[], h.ok hx, fun _ he ↦ by cases he⟩

private theorem sendsTo_sendBuffer {c : Crypto} {q2 : Fin N} {w w' : World N}
    (h : (sendBuffer c q2).run w = .ok () w') : SendsTo q2 w w' := by
  rcases sendBuffer_ok h with ⟨_, rfl⟩ | ⟨hc, _, wire, hs⟩
  · exact ⟨[], rfl, fun _ he ↦ by cases he⟩
  · exact ⟨[_], hs, fun e he ↦ ⟨hc, _, wire, List.mem_singleton.mp he⟩⟩

/-- `SendBuffer` writes to the socket in the slot of its server only. -/
theorem sendsTo_final (c : Crypto) (q2 : Fin N) (w : World N) :
    SendsTo q2 w (final (sendBuffer c q2) w) := by
  cases h : (sendBuffer c q2).run w with
  | ok u w' =>
    rw [final_of_ok h]
    exact sendsTo_sendBuffer h
  | error e w' =>
    rw [final_of_error h]
    refine ⟨[], ?_, fun _ he ↦ by cases he⟩
    rcases sendBuffer_error h with rfl | ⟨_, rfl⟩
    · rfl
    · exact w.enciphering_sends q2

/-- Parts of a run that leave the sessions alone send one after the other. -/
theorem sendsTo_trans {q2 : Fin N} {w w₁ w' : World N} (h : SendsTo q2 w w₁)
    (hcore : w₁.core = w.core) (h' : SendsTo q2 w₁ w') : SendsTo q2 w w' := by
  rcases h with ⟨l, hl, hle⟩
  rcases h' with ⟨l', hl', hle'⟩
  refine ⟨l' ++ l, by rw [hl', hl, List.append_assoc], fun e he ↦ ?_⟩
  rcases List.mem_append.mp he with he | he
  · have hto := hle' e he
    rwa [wireOf_of_core hcore, connected_of_core hcore] at hto
  · exact hle e he

/-- The rest of a run, behind a part that talks and sends nothing. -/
theorem sendsTo_bind {x : M N α} {f : α → M N β} (ht : Talks x) (hm : Mute x) {q2 : Fin N}
    {w w' : World N} {b : β} (h : (x >>= f).run w = .ok b w')
    (hf : ∀ a w₁, (f a).run w₁ = .ok b w' → SendsTo q2 w₁ w') : SendsTo q2 w w' := by
  obtain ⟨a, w₁, h₁, h₂⟩ := run_bind_ok h
  exact sendsTo_trans (sendsTo_of_mute hm q2 h₁) (ht.keeps_core.ok h₁) (hf a w₁ h₂)

private theorem sendsTo_acceptAuth {c : Crypto} {q2 : Fin N} {w w' : World N}
    (h : (acceptAuth c q2).run w = .ok () w') : SendsTo q2 w w' :=
  sendsTo_bind (talks_onOut q2 _) (mute_onOut q2 _) h fun _ _ h ↦ sendsTo_sendBuffer h

private theorem sendsTo_concludeAuth {c : Crypto} {q2 : Fin N} {verified : Bool} {w w' : World N}
    (h : (concludeAuth c q2 verified).run w = .ok () w') : SendsTo q2 w w' := by
  unfold concludeAuth at h
  cases verified with
  | true => exact sendsTo_acceptAuth h
  | false =>
    obtain ⟨_, w₁, h₁, h⟩ := run_bind_ok h
    obtain ⟨_, w₂, h₂, h₁⟩ := run_bind_ok h₁
    obtain ⟨_, w₃, h₃, h₁⟩ := run_bind_ok h₁
    have hc₂ : w₂.core = w.core := (talks_onOut q2 _).keeps_core.ok h₂
    have hc₃ : w₃.core = w₂.core := (talks_sendBuffer c q2).keeps_core.ok h₃
    have h₁₂ := sendsTo_trans (sendsTo_of_mute (mute_onOut q2 _) q2 h₂) hc₂
      (sendsTo_sendBuffer h₃)
    obtain ⟨l, hl, hto⟩ := sendsTo_trans h₁₂ (hc₃.trans hc₂)
      (sendsTo_of_mute (mute_closeConnection q2) q2 h₁)
    -- The connection is closed, so the acknowledgement is not sent.
    have hclosed : (w₁.servers q2).connected = false := closeConnection_disconnects h₁
    obtain ⟨l', hl', hto'⟩ := sendsTo_acceptAuth h
    have hnil : l' = [] := List.eq_nil_iff_forall_not_mem.mpr fun e he ↦ by
      have hc := (hto' e he).1
      rw [hclosed] at hc
      cases hc
    exact ⟨l, by rw [hl', hnil, hl]; rfl, hto⟩

private theorem sendsTo_teleport {c : Crypto} {q2 : Fin N} {clientId : UInt8}
    {location : List UInt8} {w w' : World N}
    (h : (teleport c q2 clientId location).run w = .ok () w') : SendsTo q2 w w' := by
  have hend {p : CharPtr} {w₁ : World N} {k : M N Unit} (hk : ∀ w₂, k.run w₂ = .ok () w' →
      SendsTo q2 w₂ w') (h : (clientText q2 clientId printHigh p >>= fun _ ↦ k).run w₁ =
        .ok () w') : SendsTo q2 w₁ w' :=
    sendsTo_bind (talks_clientText q2 _ _ _) (mute_clientText q2 _ _ _) h fun _ w₂ h ↦ hk w₂ h
  have hsend (w₁ : World N) (h : (sendBuffer c q2).run w₁ = .ok () w') : SendsTo q2 w₁ w' :=
    sendsTo_sendBuffer h
  unfold teleport at h
  by_cases hl : location = []
  · rw [if_pos hl] at h
    exact sendsTo_bind talks_buildTeleportServers mute_buildTeleportServers h
      fun _ _ h ↦ hend hsend h
  · rw [if_neg hl] at h
    apply sendsTo_bind (talks_look fun _ _ _ ↦ rfl) (mute_look _) h
    intro found w₁ h
    cases found with
    | some f =>
      apply sendsTo_bind (talks_server f) (mute_look _) h
      intro s _ h
      apply sendsTo_bind (talks_va _) (mute_va _) h
      intro reply _ h
      apply sendsTo_bind (talks_va _) (mute_va _) h
      intro stuff _ h
      refine hend (fun w₂ h ↦ ?_) h
      apply sendsTo_bind (talks_strAt _) (mute_look _) h
      intro stuff _ h
      exact sendsTo_bind (talks_onOut q2 _) (mute_onOut q2 _) h fun _ w₃ h ↦ hsend w₃ h
    | none =>
      exact sendsTo_bind (talks_va _) (mute_va _) h fun reply _ h ↦ hend hsend h

/-- A command other than an invitation sends to its own server only. -/
theorem sendsTo_exec {c : Crypto} {q2 : Fin N} {cmd : Command} {w w' : World N}
    (hcmd : ∀ clientId text, cmd ≠ .invite clientId text)
    (h : (exec c q2 cmd).run w = .ok () w') : SendsTo q2 w w' := by
  cases cmd with
  | auth cipher =>
    obtain ⟨b, w₁, h₁, h⟩ := run_bind_ok h
    have hm : w₁.sends = w.sends := (mute_checkAnswer c q2 cipher).ok h₁
    have hroute : w₁.wireOf q2 = w.wireOf q2 ∧
        (w₁.servers q2).connected = (w.servers q2).connected := by
      have hc := (core_checkAnswer h₁).2
      cases b with
      | true =>
        have hr : w₁.core.records q2 = { w.core.records q2 with trusted := true } := by
          rw [hc, if_pos rfl, Core.grant, Core.log_records, Core.updateRecord_self]
        have hfds : w₁.core.fds = w.core.fds := by
          rw [hc, if_pos rfl]
          rfl
        have hidx : (w₁.servers q2).index = (w.servers q2).index := congrArg Record.index hr
        refine ⟨?_, congrArg Record.connected hr⟩
        unfold World.wireOf
        rw [hidx]
        exact congrFun hfds _
      | false => exact ⟨wireOf_of_core hc q2, connected_of_core hc q2⟩
    obtain ⟨l, hl, hto⟩ := sendsTo_concludeAuth h
    refine ⟨l, by rw [hl, hm], fun e he ↦ ?_⟩
    have hto' := hto e he
    rwa [hroute.1, hroute.2] at hto'
  | quit => exact sendsTo_of_mute (mute_closeConnection q2) q2 h
  | ping =>
    apply sendsTo_bind (talks_onOut q2 _) (mute_onOut q2 _) h
    intro _ _ h
    refine sendsTo_bind ?_ (mute_modifyServer q2 _) h fun _ _ h ↦ sendsTo_sendBuffer h
    exact talks_modifyServer q2 fun _ ↦ rfl
  | teleport clientId location => exact sendsTo_teleport h
  | invite clientId text => exact absurd rfl (hcmd clientId text)
  | _ =>
    rw [exec_tells rfl h]
    exact ⟨[], rfl, fun _ he ↦ (List.not_mem_nil he).elim⟩

/-- The message of an invitation. -/
def sayAllBytes (message : List UInt8) : List UInt8 := [scmdSayAll] ++ (message ++ [0])

/-- The text of an invitation is sent to a connected server. -/
theorem sayAll_ok {c : Crypto} {message : List UInt8} {s : Fin N} {w w' : World N}
    (h : (sayAll c message s).run w = .ok () w') :
    if (w.servers s).connected then
      ∃ plain, w' = w.posted s plain ((w.servers s).wire c plain) ∧
        ((w.servers s).msg = .zero → plain = sayAllBytes message)
    else w' = w := by
  obtain ⟨r, w₁, h₁, h⟩ := run_bind_ok h
  obtain ⟨rfl, rfl⟩ := look_ok h₁
  by_cases hc : (w.servers s).connected = true
  · rw [if_neg (by simp [hc])] at h
    rw [if_pos hc]
    exact post_ok (appends_bind (appends_byte scmdSayAll) (appends_string message))
      (Nat.succ_pos _) hc h
  · rw [if_pos (by simp [hc])] at h
    rw [if_neg hc]
    cases h
    rfl

private theorem sayAll_forM {c : Crypto} {message : List UInt8} {servers : List (Fin N)}
    {w w' : World N} (h : (forM servers (sayAll c message)).run w = .ok () w') :
    ∃ l, w'.sends = l ++ w.sends ∧
      (∀ e ∈ l, ∃ s ∈ servers, (w.servers s).connected = true ∧
        ∃ plain wire, e = .sent (w.wireOf s) plain wire) ∧
      ∀ s ∈ servers, (w.servers s).connected = true →
        ∃ plain wire, .sent (w.wireOf s) plain wire ∈ l := by
  induction servers generalizing w with
  | nil =>
    cases h
    exact ⟨[], rfl, fun _ he ↦ (List.not_mem_nil he).elim, fun _ hs ↦ (List.not_mem_nil hs).elim⟩
  | cons s servers ih =>
    rw [List.forM_cons] at h
    obtain ⟨_, w₁, h₁, h⟩ := run_bind_ok h
    have hcore : w₁.core = w.core := (talks_sayAll c message s).keeps_core.ok h₁
    obtain ⟨l₁, hl₁, hto₁, hall₁⟩ : ∃ l, w₁.sends = l ++ w.sends ∧
        (∀ e ∈ l, (w.servers s).connected = true ∧
          ∃ plain wire, e = .sent (w.wireOf s) plain wire) ∧
        ((w.servers s).connected = true → ∃ plain wire, .sent (w.wireOf s) plain wire ∈ l) := by
      have hsay := sayAll_ok h₁
      by_cases hc : (w.servers s).connected = true
      · rw [if_pos hc] at hsay
        obtain ⟨plain, rfl, _⟩ := hsay
        exact ⟨[_], w.posted_sends s plain _,
          fun e he ↦ ⟨hc, plain, _, List.mem_singleton.mp he⟩,
          fun _ ↦ ⟨plain, _, List.mem_cons_self⟩⟩
      · rw [if_neg hc] at hsay
        rw [hsay]
        exact ⟨[], rfl, fun _ he ↦ (List.not_mem_nil he).elim, fun h ↦ absurd h hc⟩
    obtain ⟨l₂, hl₂, hto₂, hall₂⟩ := ih h
    simp only [wireOf_of_core hcore, connected_of_core hcore] at hto₂ hall₂
    refine ⟨l₂ ++ l₁, by rw [hl₂, hl₁, List.append_assoc], fun e he ↦ ?_, fun t ht hct ↦ ?_⟩
    · rcases List.mem_append.mp he with he | he
      · obtain ⟨t, ht, hsent⟩ := hto₂ e he
        exact ⟨t, List.mem_cons_of_mem s ht, hsent⟩
      · exact ⟨s, List.mem_cons_self, hto₁ e he⟩
    · rcases List.mem_cons.mp ht with rfl | ht
      · obtain ⟨p, x, hmem⟩ := hall₁ hct
        exact ⟨p, x, List.mem_append_right _ hmem⟩
      · obtain ⟨p, x, hmem⟩ := hall₂ t ht hct
        exact ⟨p, x, List.mem_append_left _ hmem⟩

/-- An invitation is sent to every connected server, and to no one else. -/
theorem sends_invite {c : Crypto} {q2 : Fin N} {clientId : UInt8} {text : List UInt8}
    {w w' : World N} (h : (exec c q2 (.invite clientId text)).run w = .ok () w') :
    ∃ l, w'.sends = l ++ w.sends ∧
      (∀ e ∈ l, ∃ s, (w.servers s).connected = true ∧
        ∃ plain wire, e = .sent (w.wireOf s) plain wire) ∧
      ∀ s, (w.servers s).connected = true → ∃ plain wire, .sent (w.wireOf s) plain wire ∈ l := by
  have hi : (invite c q2 clientId text).run w = .ok () w' := h
  obtain ⟨s, w₁, h₁, hi⟩ := run_bind_ok hi
  obtain ⟨p, w₂, h₂, hi⟩ := run_bind_ok hi
  obtain ⟨t, w₃, h₃, hi⟩ := run_bind_ok hi
  obtain ⟨rfl, rfl⟩ := look_ok h₁
  obtain ⟨rfl, rfl⟩ := look_ok h₃
  have hcore : w₂.core = w.core := (talks_va _).keeps_core.ok h₂
  have hm : w₂.sends = w.sends := (mute_va _).ok h₂
  obtain ⟨l, hl, hto, hall⟩ := sayAll_forM hi
  simp only [wireOf_of_core hcore, connected_of_core hcore] at hto hall
  refine ⟨l, by rw [hl, hm], fun e he ↦ ?_, fun s hc ↦ hall s (List.mem_finRange s) hc⟩
  obtain ⟨s, _, hsent⟩ := hto e he
  exact ⟨s, hsent⟩

/-- What has been sent stays sent. -/
theorem sends_exec {c : Crypto} {q2 : Fin N} {cmd : Command} {w w' : World N}
    (h : (exec c q2 cmd).run w = .ok () w') : ∃ l, w'.sends = l ++ w.sends := by
  by_cases hcmd : ∃ clientId text, cmd = .invite clientId text
  · rcases hcmd with ⟨clientId, text, rfl⟩
    obtain ⟨l, hl, _⟩ := sends_invite h
    exact ⟨l, hl⟩
  · obtain ⟨l, hl, _⟩ := sendsTo_exec (fun clientId text he ↦ hcmd ⟨clientId, text, he⟩) h
    exact ⟨l, hl⟩

end Q2Admin
