import Q2Admin.Session.Quiet
import Q2Admin.Session.Texts

/-!
# What fits the output buffers

Library `Q2Admin.Session`. The writers check no bound and `SendBuffer` does nothing for a server
that is not connected, so what its commands answer piles up in its buffer. `exec_returns`: behind
what it prepares the handler of a command returns, and leaves every buffer within its array, if
its reply fits behind what waits; while the server is connected nothing waits and every reply
fits, enciphered or not.
-/

namespace Q2Admin

open Exec

variable {N : Nat} {c : Crypto} {q2 : Fin N} {w w₁ w' : World N}

/-- A buffer whose cursor and length are behind what has been written, inside its array. -/
def MsgBuffer.Within (m : MsgBuffer) : Prop := ∃ bs, m = .ofBytes bs ∧ bs.length ≤ msgSize

/-- In a buffer that is within bounds the cursor is at the end, and that is in the array. -/
theorem MsgBuffer.Within.bounds {m : MsgBuffer} (h : m.Within) :
    m.index = m.length ∧ m.length ≤ msgSize := by
  obtain ⟨bs, rfl, hbs⟩ := h
  exact ⟨rfl, hbs⟩

/-- An empty buffer is within bounds. -/
theorem MsgBuffer.within_zero : MsgBuffer.zero.Within := ⟨[], rfl, Nat.zero_le _⟩

/-- The output buffer of every server is within its array. -/
def World.Within (w : World N) : Prop := ∀ s, (w.servers s).msg.Within

/-- An update keeps the buffers within bounds if it does so for its own server. -/
theorem World.Within.update (h : w.Within) {f : Q2Server → Q2Server}
    (hf : (f (w.servers q2)).msg.Within) : (w.updateServer q2 f).Within := by
  intro s
  by_cases hs : s = q2
  · rw [hs, World.updateServer_self]
    exact hf
  · rw [World.updateServer_of_ne _ _ hs]
    exact h s

/-- The bounds depend on the buffers only. -/
theorem World.Within.of_servers (h : w.Within) (hs : ∀ s, (w'.servers s).msg = (w.servers s).msg) :
    w'.Within := fun s ↦ by
  rw [hs s]
  exact h s

/-- The longest message that still fits the work buffer of `SendBuffer` when it is enciphered. -/
def sealedSize : Nat := 65519

/-- The ciphertext fits the work buffer exactly if the plaintext is not too long. -/
theorem sealed_fits {n : Nat} : 16 * (n / 16 + 1) ≤ msgSize ↔ n ≤ sealedSize := by
  have hsize : msgSize = 65535 := rfl
  have hsealed : sealedSize = 65519 := rfl
  omega

/-- Nothing has happened to the records but that the bytes `e` were written for the server. -/
structure Poured (q2 : Fin N) (e : List UInt8) (w w' : World N) : Prop
    extends Fed q2 e.length w w' where
  encrypted : (w'.servers q2).connection.encrypted = (w.servers q2).connection.encrypted
  written : ∀ bs, (w.servers q2).msg = .ofBytes bs → (w'.servers q2).msg = .ofBytes (bs ++ e)

/-- The program returns when it has written the bytes `e` for the server. -/
def Pours (q2 : Fin N) (e : List UInt8) (x : M N Unit) (w : World N) : Prop :=
  ∃ w', x.run w = .ok () w' ∧ Poured q2 e w w'

/-- Nothing has been written where the records are the same. -/
theorem Poured.of_servers (h : w'.servers = w.servers) : Poured q2 [] w w' := by
  refine ⟨⟨fun s _ ↦ congrFun h s, ?_, ?_⟩, ?_, fun bs hbs ↦ ?_⟩
  · rw [h]
  · rw [h]
    exact Nat.le_refl _
  · rw [h]
  · rw [h, hbs, List.append_nil]

/-- What has been written in two parts is written one behind the other. -/
theorem Poured.trans {e e' : List UInt8} (h : Poured q2 e w w₁) (h' : Poured q2 e' w₁ w') :
    Poured q2 (e ++ e') w w' := by
  refine ⟨?_, h'.encrypted.trans h.encrypted, fun bs hbs ↦ ?_⟩
  · rw [List.length_append]
    exact h.toFed.trans h'.toFed
  · rw [h'.written _ (h.written bs hbs), List.append_assoc]

/-- Writing does not show in who is connected. -/
theorem Poured.connected {e : List UInt8} (h : Poured q2 e w w') :
    (w'.servers q2).connected = (w.servers q2).connected :=
  congrArg Prod.fst h.standing

/-- Writing does not show in who is trusted. -/
theorem Poured.trusted {e : List UInt8} (h : Poured q2 e w w') :
    (w'.servers q2).trusted = (w.servers q2).trusted :=
  congrArg (fun p ↦ p.2.1) h.standing

/-- Writing does not show in whose traffic is enciphered. -/
theorem Poured.secure {e : List UInt8} (h : Poured q2 e w w') :
    (w'.servers q2).secure = (w.servers q2).secure := by
  unfold Q2Server.secure
  rw [h.encrypted, h.trusted]

/-- Writing leaves the context for enciphering. -/
theorem Poured.eCtx {e : List UInt8} (h : Poured q2 e w w') :
    (w'.servers q2).connection.eCtx = (w.servers q2).connection.eCtx :=
  congrArg (fun p ↦ p.2.2) h.standing

/-- A writer, if what it writes fits. -/
theorem pours_onOut {x : BufM Unit} {e : List UInt8} (hx : Writes x e) (hin : w.Within)
    (hroom : (w.servers q2).msg.length + e.length ≤ msgSize) : Pours q2 e (onOut q2 x) w := by
  obtain ⟨bs, hbs, _⟩ := hin q2
  have hlen : (w.servers q2).msg.length = bs.length := by
    rw [hbs]
    rfl
  refine ⟨_, onOut_run hx hbs (by omega), ⟨fun s hs ↦ World.updateServer_of_ne _ _ hs, ?_, ?_⟩,
    ?_, fun bs' hbs' ↦ ?_⟩
  · rw [World.updateServer_self]
    rfl
  · rw [World.updateServer_self, hlen]
    exact Nat.le_of_eq List.length_append.symm
  · rw [World.updateServer_self]
  · rw [World.updateServer_self]
    rw [hbs] at hbs'
    rw [show bs = bs' from congrArg MsgBuffer.data hbs']

/-- What the server's records keep while bytes are written for it. -/
theorem Poured.within {e : List UInt8} (h : Poured q2 e w w') (hin : w.Within)
    (hroom : (w.servers q2).msg.length + e.length ≤ msgSize) : w'.Within := by
  intro s
  by_cases hs : s = q2
  · obtain ⟨bs, hbs, _⟩ := hin q2
    rw [hbs] at hroom
    refine ⟨bs ++ e, ?_, ?_⟩
    · rw [hs]
      exact h.written bs hbs
    · rw [List.length_append]
      exact hroom
  · rw [h.others s hs]
    exact hin s

/-- The buffer gets longer by what is written. -/
theorem Poured.length {e : List UInt8} (h : Poured q2 e w w') (hin : w.Within) :
    (w'.servers q2).msg.length = (w.servers q2).msg.length + e.length := by
  obtain ⟨bs, hbs, _⟩ := hin q2
  rw [h.written bs hbs, hbs]
  exact List.length_append

/-- The length of what waits for the server when `k` more bytes have been written and
`SendBuffer` has been called. -/
def Q2Server.waiting (s : Q2Server) (k : Nat) : Nat := if s.connected then 0 else s.msg.length + k

/-- What has been written for a server is sent, or it waits if the server is not connected. -/
theorem flush_run (c : Crypto) {e : List UInt8} (h : w.Quiet) (hin : w.Within)
    (hpoured : Poured q2 e w w₁) (he : 0 < e.length) (hsealed : e.length ≤ sealedSize)
    (hroom : (w.servers q2).connected = false →
      (w.servers q2).msg.length + e.length ≤ msgSize) :
    ∃ w', (sendBuffer c q2).run w₁ = .ok () w' ∧ w'.Quiet ∧ w'.Within ∧
      (w'.servers q2).connected = (w.servers q2).connected ∧
      (w'.servers q2).msg.length = (w.servers q2).waiting e.length := by
  unfold Q2Server.waiting
  cases hc : (w.servers q2).connected with
  | false =>
    have hrun := sendBuffer_idle c (hpoured.connected.trans hc)
    have hquiet := flushes_sendBuffer c he w w₁ w₁ h hpoured.toFed hrun
    exact ⟨w₁, hrun, hquiet, hpoured.within hin (hroom hc), hpoured.connected.trans hc,
      hpoured.length hin⟩
  | true =>
    have hwritten : (w₁.servers q2).msg = .ofBytes e := hpoured.written [] ((h q2).empty hc)
    have hcontents : (w₁.servers q2).msg.contents = e := by
      rw [hwritten]
      exact MsgBuffer.contents_ofBytes e
    have hlen : (w₁.servers q2).msg.length ≠ 0 := by
      rw [hwritten]
      exact Nat.pos_iff_ne_zero.mp he
    have hctx (hs : (w₁.servers q2).secure = true) :
        (w₁.servers q2).connection.eCtx ≠ none := by
      rw [hpoured.secure] at hs
      rw [hpoured.eCtx]
      exact (h q2).context (Bool.and_eq_true_iff.mp hs).2
    have hrun := sendBuffer_posted c (hpoured.connected.trans hc) hlen hctx fun _ ↦ by
      rw [hcontents]
      exact sealed_fits.mpr hsealed
    have hquiet := flushes_sendBuffer c he w w₁ _ h hpoured.toFed hrun
    refine ⟨_, hrun, hquiet, fun s ↦ ?_, ?_, ?_⟩
    · by_cases hs : s = q2
      · rw [hs, World.posted_self]
        exact MsgBuffer.within_zero
      · rw [World.posted_of_ne _ _ _ hs, hpoured.others s hs]
        exact hin s
    · rw [World.posted_self]
      exact hpoured.connected.trans hc
    · rw [World.posted_self]
      rfl

/-- The text for a player who is sent to a server; `parse.c:161`. -/
def sendingFormat (s : Q2Server) : List Piece :=
  [.text (ascii "sending you to "), .str (.fixed s.ipStr),
    .text (ascii ":" ++ decimal s.port.toNat ++ ascii "\n")]

/-- The command that connects the client to the server; `parse.c:162`. -/
def stuffFormat (clientId : UInt8) (s : Q2Server) : List Piece :=
  [.text (ascii "sv !stuff CL " ++ decimal clientId.toNat ++ ascii " connect "),
    .str (.fixed s.ipStr), .text (ascii ":" ++ decimal s.port.toNat)]

/-- The text for a location that no server has; `parse.c:169`. -/
def unlocatedFormat (location : List UInt8) : List Piece :=
  [.text (ascii "\""), .str (.fixed location), .text (ascii "\" could not be located\n")]

/-- The text that sends a player to a server has no NUL in it. -/
theorem nul_notMem_sending {rings : Fin 8 → List UInt8} (s : Q2Server) :
    ∀ a ∈ sendingFormat s, (0 : UInt8) ∉ a.print rings := by
  have hliterals : (0 : UInt8) ∉ ascii "sending you to " ∧ (0 : UInt8) ∉ ascii ":" ∧
      (0 : UInt8) ∉ ascii "\n" := by decide
  have hip : (0 : UInt8) ∉ s.ipStr := nul_notMem_cstr _
  simp only [sendingFormat, List.forall_mem_cons, Piece.print, CharPtr.deref, List.mem_append,
    hliterals, hip, nul_notMem_decimal, or_self, not_false_iff, true_and]
  exact List.forall_mem_nil _

/-- The command that connects a player has no NUL in it. -/
theorem nul_notMem_stuff {rings : Fin 8 → List UInt8} (clientId : UInt8) (s : Q2Server) :
    ∀ a ∈ stuffFormat clientId s, (0 : UInt8) ∉ a.print rings := by
  have hliterals : (0 : UInt8) ∉ ascii "sv !stuff CL " ∧ (0 : UInt8) ∉ ascii " connect " ∧
      (0 : UInt8) ∉ ascii ":" := by decide
  have hip : (0 : UInt8) ∉ s.ipStr := nul_notMem_cstr _
  simp only [stuffFormat, List.forall_mem_cons, Piece.print, CharPtr.deref, List.mem_append,
    hliterals, hip, nul_notMem_decimal, or_self, not_false_iff, true_and]
  exact List.forall_mem_nil _

/-- The refusal of a location without NUL has no NUL in it. -/
theorem nul_notMem_unlocated {rings : Fin 8 → List UInt8} {location : List UInt8}
    (h : (0 : UInt8) ∉ location) : ∀ a ∈ unlocatedFormat location, (0 : UInt8) ∉ a.print rings := by
  have hliterals : (0 : UInt8) ∉ ascii "\"" ∧ (0 : UInt8) ∉ ascii "\" could not be located\n" := by
    decide
  simp only [unlocatedFormat, List.forall_mem_cons, Piece.print, CharPtr.deref, hliterals, h,
    not_false_iff, true_and]
  exact List.forall_mem_nil _

/-- The server to which a TELEPORT with this location goes. -/
def World.located (w : World N) (location : List UInt8) : Option (Fin N) :=
  (serverList N).reverse.find? fun s ↦ (w.servers s).nameStr = location

/-- The list that a TELEPORT without location answers with. -/
def World.listingText (w : World N) : List UInt8 :=
  match buildTeleportServers.run w with
  | .ok p w' => p.deref w'.vaStrings
  | .error _ _ => []

/-- The refusal of an AUTH. -/
def authRefusal : List UInt8 :=
  errorBytes 0xff errUnauthorized (ascii "Client authentication failed")

/-- What the handler of a command writes for its own server. -/
def Command.reply (c : Crypto) (w : World N) (q2 : Fin N) : Command → List UInt8
  | .ping => [scmdPong]
  | .auth cipher =>
    if (w.servers q2).accepts c cipher then [scmdTrusted] else authRefusal ++ [scmdTrusted]
  | .teleport clientId location =>
    if location = [] then sayClientBytes clientId printHigh w.listingText
    else
      match w.located location with
      | some f =>
        sayClientBytes clientId printHigh (vaText (sendingFormat (w.servers f))) ++
          ([scmdCommand] ++ (vaText (stuffFormat clientId (w.servers f)) ++ [0]))
      | none => sayClientBytes clientId printHigh (vaText (unlocatedFormat location))
  | _ => []

/-- What the handler of a command does before it writes. -/
def Command.prepare (c : Crypto) (q2 : Fin N) : Command → M N Unit
  | .auth cipher => do
    let _ ← checkAnswer c q2 cipher
    pure ()
  | .teleport _ location =>
    if location = [] then do
      let _ ← buildTeleportServers
      pure ()
    else pure ()
  | .quit | .ping | .invite _ _ => pure ()
  | cmd => exec c q2 cmd

/-- If the server is not connected, the reply to its command fits behind what waits for it. -/
def World.HasRoom (c : Crypto) (w : World N) (q2 : Fin N) (cmd : Command) : Prop :=
  (w.servers q2).connected = false → ∀ w₁, (cmd.prepare c q2).run w = .ok () w₁ →
    (w.servers q2).msg.length + (cmd.reply c w q2).length ≤ msgSize

private theorem fills_sayClient (clientId level : UInt8) (text : List UInt8) :
    Fills (do
      msgWriteByte scmdSayClient
      msgWriteByte clientId
      msgWriteByte level
      msgWriteString (some text)) (sayClientBytes clientId level text) :=
  fills_bind (fills_byte scmdSayClient) (fills_bind (fills_byte clientId)
    (fills_bind (fills_byte level) (fills_string text)))

/-- An error fills its bytes. -/
theorem fills_error (id error : UInt8) (text : List UInt8) :
    Fills (do
      msgWriteByte scmdError
      msgWriteByte id
      msgWriteByte error
      msgWriteString (some text)) (errorBytes id error text) :=
  fills_bind (fills_byte scmdError) (fills_bind (fills_byte id)
    (fills_bind (fills_byte error) (fills_string text)))

private theorem fills_command (text : List UInt8) :
    Fills (do
      msgWriteByte scmdCommand
      msgWriteString (some text)) ([scmdCommand] ++ (text ++ [0])) :=
  fills_bind (fills_byte scmdCommand) (fills_string text)

private theorem room_of_quiet {k : Nat} (h : w.Quiet) (hsealed : k ≤ sealedSize)
    (hroom : (w.servers q2).connected = false → (w.servers q2).msg.length + k ≤ msgSize) :
    (w.servers q2).msg.length + k ≤ msgSize := by
  cases hc : (w.servers q2).connected with
  | false => exact hroom hc
  | true =>
    have hsize : msgSize = 65535 := rfl
    have hlimit : sealedSize = 65519 := rfl
    have hzero : (MsgBuffer.zero).length = 0 := rfl
    rw [(h q2).empty hc, hzero]
    omega

private theorem sayClientBytes_length (clientId level : UInt8) (text : List UInt8) :
    (sayClientBytes clientId level text).length = text.length + 4 := by
  simp [sayClientBytes]

private theorem pours_clientText (clientId level : UInt8) (text : CharPtr) (hin : w.Within)
    (hroom : (w.servers q2).msg.length +
      (sayClientBytes clientId level (text.deref w.vaStrings)).length ≤ msgSize) :
    Pours q2 (sayClientBytes clientId level (text.deref w.vaStrings))
      (clientText q2 clientId level text) w := by
  have hstr : (strAt text).run w = .ok (text.deref w.vaStrings) w := rfl
  obtain ⟨w', hrun, hpoured⟩ := pours_onOut (fills_sayClient clientId level _).writes hin hroom
  exact ⟨w', (run_bind_of_ok hstr).trans hrun, hpoured⟩

private theorem clientText_strAt {clientId level : UInt8} {text : CharPtr}
    (hrun : (clientText q2 clientId level text).run w = .ok () w₁) (p : CharPtr) :
    (strAt p).run w₁ = .ok (p.deref w.vaStrings) w₁ := by
  have hkeeps : Keeps World.vaStrings (clientText q2 clientId level text) :=
    keeps_bind (fun _ ↦ rfl) fun _ ↦ keeps_zoom fun _ _ ↦ rfl
  rw [← hkeeps.ok hrun]
  rfl

private theorem pong_answers (c : Crypto) (h : w.Quiet) (hin : w.Within)
    (hroom : (w.servers q2).connected = false → (w.servers q2).msg.length + 1 ≤ msgSize) :
    ∃ w', (pong c q2).run w = .ok () w' ∧ w'.Within := by
  have hsealed : [scmdPong].length ≤ sealedSize := by decide
  obtain ⟨w₁, hrun, hpoured⟩ :=
    pours_onOut (writes_byte scmdPong) hin (room_of_quiet h hsealed hroom)
  let count (s : Q2Server) : Q2Server :=
    { s with connection := { s.connection with pingCount := s.connection.pingCount + 1 } }
  have hfeeds : Feeds q2 0 (modifyServer q2 count) := feeds_modifyServer fun _ ↦ ⟨rfl, rfl⟩
  have hcount : Poured q2 [] w₁ (w₁.updateServer q2 count) := by
    refine ⟨hfeeds w₁ _ () rfl, ?_, fun bs hbs ↦ ?_⟩
    · rw [World.updateServer_self]
    · rw [World.updateServer_self, List.append_nil]
      exact hbs
  obtain ⟨w', hrun', _, hin', _⟩ :=
    flush_run c h hin (hpoured.trans hcount) Nat.one_pos hsealed hroom
  exact ⟨w', (run_bind_of_ok hrun).trans hrun', hin'⟩

private theorem acceptAuth_run (c : Crypto) (h : w.Quiet) (hin : w.Within)
    (hroom : (w.servers q2).connected = false → (w.servers q2).msg.length + 1 ≤ msgSize) :
    ∃ w', (acceptAuth c q2).run w = .ok () w' ∧ w'.Within := by
  have hsealed : [scmdTrusted].length ≤ sealedSize := by decide
  obtain ⟨w₁, hrun, hpoured⟩ :=
    pours_onOut (writes_byte scmdTrusted) hin (room_of_quiet h hsealed hroom)
  obtain ⟨w', hrun', _, hin', _⟩ := flush_run c h hin hpoured Nat.one_pos hsealed hroom
  exact ⟨w', (run_bind_of_ok hrun).trans hrun', hin'⟩

/-- Closing a connection leaves the buffers. -/
theorem close_run (q2 : Fin N) (w : World N) :
    ∃ w', (closeConnection q2).run w = .ok () w' ∧ (w'.servers q2).connected = false ∧
      ∀ s, (w'.servers s).msg = (w.servers s).msg := by
  obtain ⟨w', hrun, _⟩ := core_closeConnection q2 w
  refine ⟨w', hrun, closeConnection_disconnects hrun, fun s ↦ ?_⟩
  rw [closeConnection_run] at hrun
  rw [(removeServerSocket_frame hrun).2.2.2 s]
  by_cases hs : s = q2
  · rw [hs, World.closing_self]
    rfl
  · rw [World.closing_of_ne _ hs]

private theorem refuseAuth_run (c : Crypto) (h : w.Quiet) (hin : w.Within)
    (hroom : (w.servers q2).connected = false →
      (w.servers q2).msg.length + authRefusal.length ≤ msgSize) :
    ∃ w', (refuseAuth c q2).run w = .ok () w' ∧ w'.Quiet ∧ w'.Within ∧
      (w'.servers q2).connected = false ∧
      (w'.servers q2).msg.length = (w.servers q2).waiting authRefusal.length := by
  have hsealed : authRefusal.length ≤ sealedSize := by decide
  obtain ⟨w₁, hrun, hpoured⟩ := pours_onOut (e := authRefusal)
    (fills_error 0xff errUnauthorized _).writes hin (room_of_quiet h hsealed hroom)
  obtain ⟨w₂, hrun₂, hquiet, hin₂, _, hwaits⟩ :=
    flush_run c h hin hpoured (Nat.succ_pos _) hsealed hroom
  obtain ⟨w₃, hrun₃, hc, hmsg⟩ := close_run q2 w₂
  refine ⟨w₃, ?_, hquiet.close hrun₃, hin₂.of_servers hmsg, hc, ?_⟩
  · unfold refuseAuth
    rw [run_bind_of_ok hrun, run_bind_of_ok hrun₂]
    exact hrun₃
  · rw [hmsg q2, hwaits]

private theorem check_stays {cipher : List UInt8} {b : Bool}
    (hcheck : (checkAnswer c q2 cipher).run w = .ok b w₁) :
    b = (w.servers q2).accepts c cipher ∧
      (w₁.servers q2).connected = (w.servers q2).connected ∧
        ∀ s, (w₁.servers s).msg = (w.servers s).msg := by
  obtain ⟨hb, k, _, rfl⟩ := checkAnswer_ok hcheck
  refine ⟨hb, ?_⟩
  cases b with
  | false => exact ⟨rfl, fun _ ↦ rfl⟩
  | true =>
    rw [if_pos rfl]
    refine ⟨?_, fun s ↦ ?_⟩
    · rw [World.granted_self]
      rfl
    · by_cases hs : s = q2
      · rw [hs, World.granted_self]
        rfl
      · rw [World.granted_of_ne _ hs]
        rfl

private theorem auth_run {cipher : List UInt8} (h : w.Quiet) (hin : w.Within)
    (hroom : w.HasRoom c q2 (.auth cipher))
    (hprep : ((Command.auth cipher).prepare c q2).run w = .ok () w₁) :
    ∃ w', (exec c q2 (.auth cipher)).run w = .ok () w' ∧ w'.Within := by
  obtain ⟨b, w₂, hcheck, _⟩ := run_bind_ok hprep
  obtain ⟨hb, hconnected, hmsg⟩ := check_stays hcheck
  have hquiet := h.check hcheck
  have hreply (hc : (w.servers q2).connected = false) := hroom hc w₁ hprep
  unfold Command.reply at hreply
  dsimp only at hreply
  rw [← hb] at hreply
  have hin₂ : w₂.Within := hin.of_servers hmsg
  rw [← hconnected, ← hmsg q2] at hreply
  have hexec : (exec c q2 (.auth cipher)).run w = (concludeAuth c q2 b).run w₂ :=
    run_bind_of_ok hcheck
  rw [hexec]
  cases b with
  | true => exact acceptAuth_run c hquiet hin₂ hreply
  | false =>
    have hlen : (authRefusal ++ [scmdTrusted]).length = authRefusal.length + 1 :=
      List.length_append
    have hone : 1 ≤ msgSize := by decide
    obtain ⟨w₃, hrefuse, hquiet₃, hin₃, _, hwaits⟩ := refuseAuth_run c hquiet hin₂ fun hc ↦ by
      have hall := hreply hc
      rw [if_neg Bool.false_ne_true, hlen] at hall
      omega
    obtain ⟨w', haccept, hin'⟩ := acceptAuth_run c hquiet₃ hin₃ fun _ ↦ by
      rw [hwaits]
      unfold Q2Server.waiting
      cases hc : (w₂.servers q2).connected with
      | true => exact hone
      | false =>
        have hall := hreply hc
        rw [if_neg Bool.false_ne_true, hlen] at hall
        rw [if_neg Bool.false_ne_true]
        omega
    exact ⟨w', (run_bind_of_ok hrefuse).trans haccept, hin'⟩

-- What `ParseTeleport` sends: a text for the player, and perhaps a command for his server.
private def speak (c : Crypto) (q2 : Fin N) (clientId : UInt8) (text : CharPtr) :
    Option CharPtr → M N Unit
  | none => do
    clientText q2 clientId printHigh text
    sendBuffer c q2
  | some stuff => do
    clientText q2 clientId printHigh text
    let stuff ← strAt stuff
    onOut q2 do
      msgWriteByte scmdCommand
      msgWriteString (some stuff)
    sendBuffer c q2

-- The bytes of the two.
private def spoken (clientId : UInt8) (text : List UInt8) : Option (List UInt8) → List UInt8
  | none => sayClientBytes clientId printHigh text
  | some stuff => sayClientBytes clientId printHigh text ++ ([scmdCommand] ++ (stuff ++ [0]))

-- A handler that sends its reply from the state `w₁`, in which its texts have been formatted.
private structure Speaks (c : Crypto) (q2 : Fin N) (clientId : UInt8) (reply : List UInt8)
    (x : M N Unit) (w w₁ : World N) (text : CharPtr) (stuff : Option CharPtr) : Prop where
  run : x.run w = (speak c q2 clientId text stuff).run w₁
  servers : w₁.servers = w.servers
  sends : w₁.sends = w.sends
  core : w₁.core = w.core
  fits : (text.deref w₁.vaStrings).length < maxStringChars
  stuffFits : ∀ p ∈ stuff, (p.deref w₁.vaStrings).length < maxStringChars
  reply : reply = spoken clientId (text.deref w₁.vaStrings)
    (stuff.map (CharPtr.deref w₁.vaStrings))

section Speaks

variable {clientId : UInt8} {location : List UInt8}

private theorem speaks_listing {p : CharPtr} (hbuild : buildTeleportServers.run w = .ok p w₁) :
    Speaks c q2 clientId (sayClientBytes clientId printHigh w.listingText)
      (teleport c q2 clientId []) w w₁ p none where
  run := run_bind_of_ok hbuild
  servers := (keeps_buildTeleportServers (v := World.servers) fun _ _ _ ↦ rfl).ok hbuild
  sends := mute_buildTeleportServers.ok hbuild
  core := talks_buildTeleportServers.keeps_core.ok hbuild
  fits := buildTeleportServers_length hbuild
  stuffFits _ h := by cases h
  reply := by
    unfold World.listingText
    rw [hbuild]
    rfl

private theorem speaks_refusal (hl : location ≠ []) (hfound : w.located location = none) :
    Speaks c q2 clientId (sayClientBytes clientId printHigh (vaText (unlocatedFormat location)))
      (teleport c q2 clientId location) w (w.formatted (unlocatedFormat location))
      (.ring w.vaSlot) none := by
  have hfixed : Fixed (unlocatedFormat location) := fun slot ↦ by simp [unlocatedFormat]
  obtain ⟨hva, htext⟩ := va_fixed (w := w) hfixed
  have hfind : (look fun w : World N ↦ (serverList N).reverse.find? fun s ↦
      (w.servers s).nameStr = location).run w = .ok (w.located location) w := rfl
  refine ⟨?_, rfl, rfl, rfl, ?_, fun _ h ↦ (by cases h), ?_⟩
  · unfold teleport
    rw [if_neg hl, run_bind_of_ok hfind, hfound]
    exact run_bind_of_ok hva
  · exact (congrArg List.length htext).trans_lt (vaText_length _)
  · exact congrArg (sayClientBytes clientId printHigh) htext.symm

private theorem speaks_connect {f : Fin N} (hl : location ≠ [])
    (hfound : w.located location = some f) :
    Speaks c q2 clientId
      (sayClientBytes clientId printHigh (vaText (sendingFormat (w.servers f))) ++
        ([scmdCommand] ++ (vaText (stuffFormat clientId (w.servers f)) ++ [0])))
      (teleport c q2 clientId location) w
      ((w.formatted (sendingFormat (w.servers f))).formatted (stuffFormat clientId (w.servers f)))
      (.ring w.vaSlot) (some (.ring (w.formatted (sendingFormat (w.servers f))).vaSlot)) := by
  have hserver : (server f).run w = .ok (w.servers f) w := rfl
  have hsending : Fixed (sendingFormat (w.servers f)) := fun slot ↦ by simp [sendingFormat]
  have hstuff : Fixed (stuffFormat clientId (w.servers f)) := fun slot ↦ by simp [stuffFormat]
  obtain ⟨hva, htext⟩ := va_fixed (w := w) hsending
  obtain ⟨hva', htext'⟩ := va_fixed (w := w.formatted (sendingFormat (w.servers f))) hstuff
  -- The second text is in another buffer than the first one.
  have hkept := (World.formatted_keeps w (sendingFormat (w.servers f))
    (stuffFormat clientId (w.servers f))).trans htext
  have hfind : (look fun w : World N ↦ (serverList N).reverse.find? fun s ↦
      (w.servers s).nameStr = location).run w = .ok (w.located location) w := rfl
  refine ⟨?_, rfl, rfl, rfl, ?_, ?_, ?_⟩
  · unfold teleport
    rw [if_neg hl, run_bind_of_ok hfind, hfound]
    refine (run_bind_of_ok hserver).trans ((run_bind_of_ok hva).trans ?_)
    exact run_bind_of_ok hva'
  · exact (congrArg List.length hkept).trans_lt (vaText_length _)
  · rintro p ⟨⟩
    exact (congrArg List.length htext').trans_lt (vaText_length _)
  · unfold spoken
    rw [Option.map_some]
    dsimp only [CharPtr.deref]
    rw [hkept, htext']

-- Behind what it prepares a TELEPORT sends a text, and a command if it has found a server.
private theorem teleport_speaks
    (hprep : ((Command.teleport clientId location).prepare c q2).run w = .ok () w₁) :
    ∃ w₂ text stuff, Speaks c q2 clientId ((Command.teleport clientId location).reply c w q2)
      (teleport c q2 clientId location) w w₂ text stuff := by
  unfold Command.prepare at hprep
  unfold Command.reply
  dsimp only at hprep ⊢
  by_cases hl : location = []
  · subst hl
    rw [if_pos rfl] at hprep ⊢
    obtain ⟨p, w₂, hbuild, _⟩ := run_bind_ok hprep
    exact ⟨w₂, p, none, speaks_listing hbuild⟩
  · rw [if_neg hl]
    cases hfound : w.located location with
    | none => exact ⟨_, _, none, speaks_refusal hl hfound⟩
    | some f => exact ⟨_, _, some _, speaks_connect hl hfound⟩

end Speaks

private theorem spoken_length (clientId : UInt8) (text : List UInt8)
    (stuff : Option (List UInt8)) (h : text.length < maxStringChars)
    (h' : ∀ s ∈ stuff, s.length < maxStringChars) :
    0 < (spoken clientId text stuff).length ∧
      (spoken clientId text stuff).length ≤ sealedSize := by
  have hmax : maxStringChars = 1024 := rfl
  have hlimit : sealedSize = 65519 := rfl
  have hsay := sayClientBytes_length clientId printHigh text
  unfold spoken
  cases stuff with
  | none =>
    dsimp only
    omega
  | some stuff =>
    have hstuff := h' stuff rfl
    simp only [List.length_append, List.length_cons, List.length_nil]
    omega

private theorem speak_run (c : Crypto) (q2 : Fin N) (clientId : UInt8) (text : CharPtr)
    (stuff : Option CharPtr) (hin : w.Within)
    (hfits : (w.servers q2).msg.length + (spoken clientId (text.deref w.vaStrings)
      (stuff.map (CharPtr.deref w.vaStrings))).length ≤ msgSize) :
    ∃ w₁, (speak c q2 clientId text stuff).run w = (sendBuffer c q2).run w₁ ∧
      Poured q2 (spoken clientId (text.deref w.vaStrings)
        (stuff.map (CharPtr.deref w.vaStrings))) w w₁ ∧ w₁.sends = w.sends ∧ w₁.core = w.core := by
  have hmute {w w₁ : World N} {clientId level : UInt8} {text : CharPtr}
      (hrun : (clientText q2 clientId level text).run w = .ok () w₁) :
      w₁.sends = w.sends ∧ w₁.core = w.core :=
    ⟨(mute_clientText q2 _ _ _).ok hrun, (talks_clientText q2 _ _ _).keeps_core.ok hrun⟩
  cases stuff with
  | none =>
    obtain ⟨w₁, hrun, hpoured⟩ := pours_clientText clientId printHigh text hin hfits
    exact ⟨w₁, run_bind_of_ok hrun, hpoured, hmute hrun⟩
  | some stuff =>
    unfold spoken at hfits ⊢
    rw [Option.map_some] at hfits ⊢
    dsimp only at hfits ⊢
    rw [List.length_append] at hfits
    obtain ⟨w₁, hrun, hpoured⟩ := pours_clientText clientId printHigh text hin
      (Nat.le_trans (Nat.add_le_add_left (Nat.le_add_right _ _) _) hfits)
    have hgrown := hpoured.length hin
    have hsecond : (w₁.servers q2).msg.length +
        ([scmdCommand] ++ (stuff.deref w.vaStrings ++ [0])).length ≤ msgSize := by omega
    obtain ⟨w₂, hrun₂, hpoured₂⟩ := pours_onOut (fills_command _).writes
      (hpoured.within hin (by omega)) hsecond
    obtain ⟨hsends, hcore⟩ := hmute hrun
    have hsends₂ : w₂.sends = w₁.sends := (mute_onOut q2 _).ok hrun₂
    have hcore₂ : w₂.core = w₁.core := (talks_onOut q2 _).keeps_core.ok hrun₂
    refine ⟨w₂, ?_, hpoured.trans hpoured₂, hsends₂.trans hsends, hcore₂.trans hcore⟩
    unfold speak
    rw [run_bind_of_ok hrun, run_bind_of_ok (clientText_strAt hrun stuff)]
    exact run_bind_of_ok hrun₂

/-- A TELEPORT writes its reply and then calls `SendBuffer`. -/
theorem teleport_pours {clientId : UInt8} {location : List UInt8} (h : w.Quiet) (hin : w.Within)
    (hroom : w.HasRoom c q2 (.teleport clientId location))
    (hprep : ((Command.teleport clientId location).prepare c q2).run w = .ok () w₁) :
    ∃ w', (teleport c q2 clientId location).run w = (sendBuffer c q2).run w' ∧
      Poured q2 ((Command.teleport clientId location).reply c w q2) w w' ∧
      w'.sends = w.sends ∧ w'.core = w.core ∧
      0 < ((Command.teleport clientId location).reply c w q2).length ∧
      ((Command.teleport clientId location).reply c w q2).length ≤ sealedSize := by
  have hreply (hc : (w.servers q2).connected = false) := hroom hc w₁ hprep
  obtain ⟨w₂, text, stuff, hspeaks⟩ := teleport_speaks hprep
  have hquiet : w₂.Quiet := fun s ↦ by
    rw [hspeaks.servers]
    exact h s
  have hin₂ : w₂.Within := hin.of_servers fun s ↦ by rw [hspeaks.servers]
  obtain ⟨hpos, hsealed⟩ := spoken_length clientId (text.deref w₂.vaStrings)
    (stuff.map (CharPtr.deref w₂.vaStrings)) hspeaks.fits fun s hs ↦ by
      obtain ⟨p, hp, rfl⟩ := Option.map_eq_some_iff.mp hs
      exact hspeaks.stuffFits p hp
  rw [hspeaks.reply, ← hspeaks.servers] at hreply
  obtain ⟨w', hrun, hpoured, hsends, hcore⟩ := speak_run c q2 clientId text stuff hin₂
    (room_of_quiet hquiet hsealed hreply)
  rw [hspeaks.reply]
  exact ⟨w', hspeaks.run.trans hrun, (Poured.of_servers hspeaks.servers).trans hpoured,
    hsends.trans hspeaks.sends, hcore.trans hspeaks.core, hpos, hsealed⟩

/-- A TELEPORT returns, and its reply has been sent or it waits. -/
theorem teleport_run {clientId : UInt8} {location : List UInt8} (h : w.Quiet) (hin : w.Within)
    (hroom : w.HasRoom c q2 (.teleport clientId location))
    (hprep : ((Command.teleport clientId location).prepare c q2).run w = .ok () w₁) :
    ∃ w', (teleport c q2 clientId location).run w = .ok () w' ∧ w'.Within ∧
      (w'.servers q2).connected = (w.servers q2).connected ∧
      (w'.servers q2).msg.length = (w.servers q2).waiting
        ((Command.teleport clientId location).reply c w q2).length := by
  obtain ⟨w₂, hrun, hpoured, _, _, hpos, hsealed⟩ := teleport_pours h hin hroom hprep
  obtain ⟨w', hrun', _, hin', hc, hwaits⟩ :=
    flush_run c h hin hpoured hpos hsealed fun hc ↦ hroom hc w₁ hprep
  exact ⟨w', hrun.trans hrun', hin', hc, hwaits⟩

section SayAll

variable {s : Fin N} {message : List UInt8}

private theorem sayAll_run (h : w.Quiet) (hc : (w.servers s).connected = true)
    (hsize : message.length < maxStringChars) :
    (sayAll c message s).run w = .ok () (w.posted s (sayAllBytes message)
      ((w.servers s).wire c (sayAllBytes message))) := by
  have hserver : (server s).run w = .ok (w.servers s) w := rfl
  have hempty : (w.servers s).msg = .ofBytes [] := (h s).empty hc
  have hmax : maxStringChars = 1024 := rfl
  have hspace : msgSize = 65535 := rfl
  have hlen : (sayAllBytes message).length = message.length + 2 := by
    simp [sayAllBytes]
  have hwrite : (onOut s (do msgWriteByte scmdSayAll; msgWriteString (some message))).run w =
      .ok () (w.holding s (.ofBytes (sayAllBytes message))) := by
    refine onOut_run (writes_bind (writes_byte scmdSayAll) (writes_string message)) hempty ?_
    change 0 + (sayAllBytes message).length ≤ msgSize
    omega
  have hcontents : (((w.holding s (.ofBytes (sayAllBytes message))).servers s).msg).contents =
      sayAllBytes message := by
    rw [World.holding_self]
    exact MsgBuffer.contents_ofBytes _
  have hheld : (w.holding s (.ofBytes (sayAllBytes message))).servers s =
      (w.servers s).hold (.ofBytes (sayAllBytes message)) := World.holding_self _ _ _
  have hctx (hs : ((w.holding s (.ofBytes (sayAllBytes message))).servers s).secure = true) :
      ((w.holding s (.ofBytes (sayAllBytes message))).servers s).connection.eCtx ≠ none := by
    rw [hheld] at hs ⊢
    exact (h s).context (Bool.and_eq_true_iff.mp hs).2
  have hsend := sendBuffer_posted c (by rw [hheld]; exact hc)
    (by rw [hheld]; exact Nat.succ_ne_zero _) hctx fun _ ↦ by rw [hcontents, hlen]; omega
  rw [hcontents, World.holding_posted, World.holding_self] at hsend
  unfold sayAll
  rw [run_bind_of_ok hserver, if_neg (by simp [hc]), run_bind_of_ok hwrite]
  exact hsend

private theorem posted_servers (h : w.Quiet) (hc : (w.servers s).connected = true)
    (plain wire : List UInt8) : (w.posted s plain wire).servers = w.servers := by
  have hsame : (w.servers s).hold .zero = w.servers s := by
    rw [← (h s).empty hc]
    rfl
  have hupdate : w.updateServer s (Q2Server.hold .zero) = w := w.updateServer_eq_self hsame
  change (w.updateServer s (Q2Server.hold .zero)).servers = w.servers
  rw [hupdate]

/-- The loop over the servers returns and leaves the records. -/
theorem sayAll_forM_run (l : List (Fin N)) (h : w.Quiet)
    (hsize : message.length < maxStringChars) :
    ∃ w', (forM l (sayAll c message)).run w = .ok () w' ∧ w'.servers = w.servers ∧
      w'.sends = ((l.filter fun s ↦ (w.servers s).connected).map fun s ↦
        .sent (w.wireOf s) (sayAllBytes message)
          ((w.servers s).wire c (sayAllBytes message))).reverse ++ w.sends := by
  induction l generalizing w with
  | nil => exact ⟨w, rfl, rfl, rfl⟩
  | cons s l ih =>
    rw [List.forM_cons]
    by_cases hc : (w.servers s).connected = true
    · have hrun := sayAll_run (c := c) h hc hsize
      have hservers := posted_servers h hc (sayAllBytes message)
        ((w.servers s).wire c (sayAllBytes message))
      obtain ⟨w', hrun', hservers', hsends⟩ := ih (h.posted s _ _)
      refine ⟨w', by rw [run_bind_of_ok hrun]; exact hrun', hservers'.trans hservers, ?_⟩
      have hwire (t : Fin N) : (w.posted s (sayAllBytes message)
          ((w.servers s).wire c (sayAllBytes message))).wireOf t = w.wireOf t := by
        unfold World.wireOf
        rw [hservers]
        rfl
      have hfilter := List.filter_cons_of_pos (p := fun t ↦ (w.servers t).connected) (l := l) hc
      rw [hsends, World.posted_sends, hfilter, List.map_cons, List.reverse_cons, List.append_assoc]
      simp only [hservers, hwire, List.singleton_append]
    · have hidle : (sayAll c message s).run w = .ok () w := by
        have hserver : (server s).run w = .ok (w.servers s) w := rfl
        unfold sayAll
        rw [run_bind_of_ok hserver, if_pos (by simp [hc])]
        rfl
      obtain ⟨w', hrun', hservers', hsends⟩ := ih h
      refine ⟨w', by rw [run_bind_of_ok hidle]; exact hrun', hservers', ?_⟩
      have hfilter := List.filter_cons_of_neg (p := fun t ↦ (w.servers t).connected) (l := l) hc
      rw [hsends, hfilter]

end SayAll

private theorem fixed_inviteFormat (s : Q2Server) (clientId : UInt8) (text : List UInt8) :
    Fixed (inviteFormat s clientId text) := by
  intro slot
  unfold inviteFormat
  dsimp only
  split <;> simp

/-- `va` writes its next buffer, from which the text is copied at once. -/
theorem invite_eq (c : Crypto) (q2 : Fin N) (clientId : UInt8) (text : List UInt8) (w : World N) :
    (invite c q2 clientId text).run w =
      (forM (serverList N) (sayAll c (cstr (strncpy maxStringChars
        (vaText (inviteFormat (w.servers q2) clientId text))).bytes))).run
          (w.formatted (inviteFormat (w.servers q2) clientId text)) := by
  have hserver : (server q2).run w = .ok (w.servers q2) w := rfl
  obtain ⟨hva, htext⟩ := va_fixed (w := w) (fixed_inviteFormat (w.servers q2) clientId text)
  have hstr : (strAt (.ring w.vaSlot)).run
      (w.formatted (inviteFormat (w.servers q2) clientId text)) =
        .ok (vaText (inviteFormat (w.servers q2) clientId text))
          (w.formatted (inviteFormat (w.servers q2) clientId text)) := by
    rw [← htext]
    rfl
  unfold invite
  rw [run_bind_of_ok hserver, run_bind_of_ok hva, run_bind_of_ok hstr]

private theorem invite_within {clientId : UInt8} {text : List UInt8} (h : w.Quiet)
    (hin : w.Within) : ∃ w', (invite c q2 clientId text).run w = .ok () w' ∧ w'.Within := by
  have hquiet : (w.formatted (inviteFormat (w.servers q2) clientId text)).Quiet := h
  have hlen := Nat.lt_of_le_of_lt
    (cstr_strncpy_length_le maxStringChars (vaText (inviteFormat (w.servers q2) clientId text)))
    (vaText_length _)
  obtain ⟨w', hrun, hservers, _⟩ := sayAll_forM_run (c := c) (serverList N) hquiet hlen
  refine ⟨w', (invite_eq c q2 clientId text w).trans hrun, fun s ↦ ?_⟩
  rw [hservers]
  exact hin s

private theorem tells_run {cmd : Command} (ht : cmd.tells = true) (hin : w.Within)
    (hprep : (cmd.prepare c q2).run w = .ok () w₁) :
    ∃ w', (exec c q2 cmd).run w = .ok () w' ∧ w'.Within := by
  have hexec : cmd.prepare c q2 = exec c q2 cmd := by
    cases cmd with
    | auth | quit | ping | teleport | invite => cases ht
    | _ => rfl
  rw [hexec] at hprep
  refine ⟨w₁, hprep, ?_⟩
  rw [exec_tells ht hprep]
  exact hin.update (hin q2)

/-- Behind what it prepares the handler of a command returns, if its reply has room, and leaves
every buffer within its array. -/
theorem exec_returns {cmd : Command} (h : w.Quiet) (hin : w.Within) (hroom : w.HasRoom c q2 cmd)
    (hprep : (cmd.prepare c q2).run w = .ok () w₁) :
    ∃ w', (exec c q2 cmd).run w = .ok () w' ∧ w'.Within := by
  cases cmd with
  | auth cipher => exact auth_run h hin hroom hprep
  | quit =>
    obtain ⟨w', hrun, _, hmsg⟩ := close_run q2 w
    exact ⟨w', hrun, hin.of_servers hmsg⟩
  | ping => exact pong_answers c h hin fun hc ↦ hroom hc w₁ hprep
  | teleport clientId location =>
    obtain ⟨w', hrun, hin', _⟩ := teleport_run h hin hroom hprep
    exact ⟨w', hrun, hin'⟩
  | invite clientId text => exact invite_within h hin
  | _ => exact tells_run rfl hin hprep

/-- A handler that returns has returned from what it prepares. -/
theorem prepare_of_exec {cmd : Command} (hrun : (exec c q2 cmd).run w = .ok () w') :
    ∃ w₁, (cmd.prepare c q2).run w = .ok () w₁ := by
  cases cmd with
  | auth cipher =>
    obtain ⟨b, w₁, hcheck, _⟩ := run_bind_ok hrun
    exact ⟨w₁, run_bind_of_ok hcheck⟩
  | teleport clientId location =>
    unfold Command.prepare
    dsimp only
    by_cases hl : location = []
    · unfold exec teleport at hrun
      dsimp only at hrun
      rw [if_pos hl] at hrun ⊢
      obtain ⟨p, w₁, hbuild, _⟩ := run_bind_ok hrun
      exact ⟨w₁, run_bind_of_ok hbuild⟩
    · rw [if_neg hl]
      exact ⟨w, rfl⟩
  | quit => exact ⟨w, rfl⟩
  | ping => exact ⟨w, rfl⟩
  | invite clientId text => exact ⟨w, rfl⟩
  | _ => exact ⟨w', hrun⟩

/-- The program stores outside an array. -/
def Faults (x : M N Unit) (w : World N) : Prop := ∃ w', x.run w = .error .overwrite w'

private theorem faults_bind {x : M N Unit} {f : Unit → M N Unit} (h : Faults x w) :
    Faults (x >>= f) w := by
  obtain ⟨w', hrun⟩ := h
  exact ⟨w', run_bind_of_error hrun⟩

private theorem faults_onOut {x : BufM Unit} {e : List UInt8} (hx : Fills x e) (hin : w.Within)
    (hlong : msgSize < (w.servers q2).msg.length + e.length) : Faults (onOut q2 x) w := by
  obtain ⟨bs, hbs, hlen⟩ := hin q2
  rw [hbs] at hlong
  obtain ⟨m, hrun⟩ := hx.overfills bs hlen hlong
  refine ⟨w.holding q2 m, ?_⟩
  unfold onOut
  rw [run_zoom]
  have hget : (outMsg q2).get w = .ofBytes bs := hbs
  rw [hget, hrun]
  rfl

private theorem faults_clientText (clientId level : UInt8) (text : CharPtr) (hin : w.Within)
    (hlong : msgSize < (w.servers q2).msg.length +
      (sayClientBytes clientId level (text.deref w.vaStrings)).length) :
    Faults (clientText q2 clientId level text) w := by
  have hstr : (strAt text).run w = .ok (text.deref w.vaStrings) w := rfl
  obtain ⟨w', hrun⟩ := faults_onOut (fills_sayClient clientId level _) hin hlong
  exact ⟨w', (run_bind_of_ok hstr).trans hrun⟩

private theorem faults_concludeAuth (b : Bool) (h : w.Quiet) (hin : w.Within)
    (hc : (w.servers q2).connected = false)
    (hlong : msgSize < (w.servers q2).msg.length +
      (if b then [scmdTrusted] else authRefusal ++ [scmdTrusted]).length) :
    Faults (concludeAuth c q2 b) w := by
  have haccept {w : World N} (hin : w.Within)
      (hlong : msgSize < (w.servers q2).msg.length + 1) : Faults (acceptAuth c q2) w :=
    faults_bind (faults_onOut (fills_byte scmdTrusted) hin hlong)
  unfold concludeAuth
  cases b with
  | true => exact haccept hin hlong
  | false =>
    rw [if_neg Bool.false_ne_true] at hlong ⊢
    rw [List.length_append] at hlong
    by_cases hroom : (w.servers q2).msg.length + authRefusal.length ≤ msgSize
    · obtain ⟨w₁, hrefuse, _, hin₁, _, hwaits⟩ := refuseAuth_run c h hin fun _ ↦ hroom
      have hwaiting : (w₁.servers q2).msg.length =
          (w.servers q2).msg.length + authRefusal.length := by
        rw [hwaits, Q2Server.waiting, hc]
        rfl
      obtain ⟨w', hrun⟩ := haccept hin₁ (by
        rw [hwaiting]
        simpa [Nat.add_assoc] using hlong)
      exact ⟨w', (run_bind_of_ok hrefuse).trans hrun⟩
    · exact faults_bind (faults_bind (faults_onOut (fills_error 0xff errUnauthorized _) hin
        (Nat.lt_of_not_le hroom)))

private theorem faults_speak (c : Crypto) (q2 : Fin N) (clientId : UInt8) (text : CharPtr)
    (stuff : Option CharPtr) (hin : w.Within)
    (hlong : msgSize < (w.servers q2).msg.length + (spoken clientId (text.deref w.vaStrings)
      (stuff.map (CharPtr.deref w.vaStrings))).length) :
    Faults (speak c q2 clientId text stuff) w := by
  cases stuff with
  | none => exact faults_bind (faults_clientText clientId printHigh text hin hlong)
  | some stuff =>
    unfold spoken at hlong
    rw [Option.map_some] at hlong
    dsimp only at hlong
    rw [List.length_append] at hlong
    by_cases hfits : (w.servers q2).msg.length +
        (sayClientBytes clientId printHigh (text.deref w.vaStrings)).length ≤ msgSize
    · obtain ⟨w₁, hrun, hpoured⟩ := pours_clientText clientId printHigh text hin hfits
      have hgrown := hpoured.length hin
      have hsecond : msgSize < (w₁.servers q2).msg.length +
          ([scmdCommand] ++ (stuff.deref w.vaStrings ++ [0])).length := by omega
      obtain ⟨w', hrun'⟩ := faults_bind (f := fun _ ↦ sendBuffer c q2)
        (faults_onOut (fills_command _) (hpoured.within hin hfits) hsecond)
      refine ⟨w', ?_⟩
      unfold speak
      rw [run_bind_of_ok hrun, run_bind_of_ok (clientText_strAt hrun stuff)]
      exact hrun'
    · exact faults_bind (faults_clientText clientId printHigh text hin (Nat.lt_of_not_le hfits))

/-- A handler whose reply has no room stores outside an array. -/
theorem exec_faults {cmd : Command} (h : w.Quiet) (hin : w.Within)
    (hc : (w.servers q2).connected = false)
    (hprep : (cmd.prepare c q2).run w = .ok () w₁)
    (hlong : msgSize < (w.servers q2).msg.length + (cmd.reply c w q2).length) :
    Faults (exec c q2 cmd) w := by
  have hfits := (hin q2).bounds.2
  cases cmd with
  | auth cipher =>
    obtain ⟨b, w₂, hcheck, _⟩ := run_bind_ok hprep
    obtain ⟨hb, hconnected, hmsg⟩ := check_stays hcheck
    unfold Command.reply at hlong
    dsimp only at hlong
    rw [← hb, ← hmsg q2] at hlong
    obtain ⟨w', hrun⟩ := faults_concludeAuth b (h.check hcheck) (hin.of_servers hmsg)
      (hconnected.trans hc) hlong
    exact ⟨w', (run_bind_of_ok hcheck).trans hrun⟩
  | ping => exact faults_bind (faults_onOut (fills_byte scmdPong) hin hlong)
  | teleport clientId location =>
    obtain ⟨w₂, text, stuff, hspeaks⟩ := teleport_speaks hprep
    have hin₂ : w₂.Within := hin.of_servers fun s ↦ by rw [hspeaks.servers]
    rw [hspeaks.reply, ← hspeaks.servers] at hlong
    obtain ⟨w', hrun⟩ := faults_speak c q2 clientId text stuff hin₂ hlong
    exact ⟨w', hspeaks.run.trans hrun⟩
  | _ => exact absurd hlong (Nat.not_lt_of_le hfits)

/-- A handler that returns leaves every buffer within its array: its reply has had room. -/
theorem within_exec {cmd : Command} (h : w.Quiet) (hin : w.Within)
    (hrun : (exec c q2 cmd).run w = .ok () w') : w'.Within := by
  obtain ⟨w₁, hprep⟩ := prepare_of_exec hrun
  by_cases hroom : w.HasRoom c q2 cmd
  · obtain ⟨v, hrun', hin'⟩ := exec_returns h hin hroom hprep
    rw [hrun] at hrun'
    cases hrun'
    exact hin'
  · unfold World.HasRoom at hroom
    push Not at hroom
    obtain ⟨hc, w₂, hprep₂, hlong⟩ := hroom
    obtain ⟨v, hfault⟩ := exec_faults h hin hc hprep₂ hlong
    rw [hrun] at hfault
    cases hfault

/-- Commands leave the buffers within bounds. -/
theorem within_execAll {cmds : List Command} (h : w.Quiet) (hin : w.Within)
    (hrun : (forM cmds (exec c q2)).run w = .ok () w') : w'.Within := by
  refine (forM_ok (P := fun w ↦ w.Quiet ∧ w.Within) (fun _ _ _ _ hp hrun ↦ ?_) ⟨h, hin⟩ hrun).2
  exact ⟨quiet_exec hp.1 hrun, within_exec hp.1 hp.2 hrun⟩

end Q2Admin
