import Q2Admin.Loop.Trust
import Q2Admin.Msg.Format

/-!
# The challenge of a handshake

Library `Q2Admin.Loop`. `ServerAuthResponse` sends the challenge with `MSG_WriteData` and
keeps it with `strncpy`, so that what is compared later is the challenge up to its first
zero byte. The client that returns what it was sent is accepted exactly if nothing but
zeros follows that byte.
-/

namespace Q2Admin

open Exec

variable {N : Nat}

private theorem keeps_credentials_of_ne {q2 s : Fin N} (h : s ≠ q2) (f : Q2Server → Q2Server) :
    Keeps (fun w ↦ (w.servers s).credentials) (modifyServer q2 f) :=
  keeps_modify fun w ↦ by rw [World.updateServer_of_ne w f h]

private theorem keeps_credentials_talks {α : Type} {x : M N α} (h : Talks x) (s : Fin N) :
    Keeps (fun w ↦ (w.servers s).credentials) x := h.keeps_server (fun _ ↦ rfl) s

private theorem keeps_credentials_load {q2 s : Fin N} (h : s ≠ q2) (env : HelloEnv) :
    Keeps (fun w ↦ (w.servers s).credentials) (loadClientPublicKey env q2) := by
  unfold loadClientPublicKey
  cases env.keyFile with
  | missing => exact keeps_throw _
  | noMemory => exact keeps_credentials_of_ne h _
  | unreadable =>
    exact keeps_bind (keeps_server_createHandle q2 _ s) fun _ ↦ keeps_credentials_of_ne h _
  | holds key =>
    exact keeps_bind (keeps_server_createHandle q2 _ s) fun _ ↦ keeps_credentials_of_ne h _

private theorem keeps_credentials_answer {q2 s : Fin N} (h : s ≠ q2) (c : Crypto) (env : HelloEnv)
    (challenge : Field 16) :
    Keeps (fun w ↦ (w.servers s).credentials) (serverAuthResponse c env q2 challenge) := by
  have hout (x : BufM Unit) := keeps_credentials_talks (talks_onOut q2 x) s
  have hsession : Keeps (fun w ↦ (w.servers s).credentials) (sendSessionKey env q2) := by
    refine keeps_bind (fun _ ↦ rfl) fun r ↦ keeps_ite (keeps_pure _) ?_
    apply keeps_bind (keeps_credentials_of_ne h _)
    intro _
    cases r.publickey with
    | none => exact keeps_throw _
    | some k =>
      exact keeps_bind (keeps_server_logEvent _ s) fun _ ↦
        keeps_bind (keeps_credentials_of_ne h _) fun _ ↦ hout _
  refine keeps_bind (keeps_credentials_of_ne h _) fun _ ↦
    keeps_ite (keeps_throw _) (keeps_ite ?_ ?_)
  · exact keeps_bind (fun _ ↦ rfl) fun _ ↦
      keeps_bind (keeps_credentials_talks (talks_release q2 _ _) s) fun _ ↦ keeps_pure _
  · exact keeps_bind (hout _) fun _ ↦ keeps_bind hsession fun _ ↦ keeps_bind (hout _) fun _ ↦
      keeps_bind (keeps_credentials_talks (talks_sendBuffer c q2) s) fun _ ↦ keeps_pure _

/-- A HELLO changes the credentials of the server it is for, and no others. -/
theorem credentials_registerHello {c : Crypto} {env : HelloEnv} {i : Nat} {h : Hello}
    {w w' : World N} {found : Option (Fin N)} {s : Fin N}
    (hr : (registerHello c env i h).run w = .ok found w')
    (hne : ∀ q2, w.serverOfKey h.key = some q2 → q2 ≠ s) :
    (w'.servers s).credentials = (w.servers s).credentials := by
  obtain ⟨f, w₁, h₁, hr⟩ := run_bind_ok hr
  obtain ⟨rfl, rfl⟩ := look_ok h₁
  cases hf : w.serverOfKey h.key with
  | none =>
    rw [hf] at hr
    cases hr
    rfl
  | some q2 =>
    rw [hf] at hr
    have hs : s ≠ q2 := (hne q2 hf).symm
    have hbind : Keeps (fun w ↦ (w.servers s).credentials) (bindServer env h i q2) :=
      keeps_bind (fun _ ↦ rfl) fun _ ↦ keeps_bind (keeps_credentials_of_ne hs _) fun _ ↦
        keeps_bind (keeps_server_logEvent _ s) fun _ ↦ keeps_credentials_load hs env
    exact (keeps_bind hbind fun _ ↦ keeps_bind (keeps_credentials_answer hs c env _) fun _ ↦
      keeps_ite (keeps_pure _) (keeps_bind
        (keeps_credentials_talks (talks_sendError c q2 _ _ _) s) fun _ ↦ keeps_pure _)).ok hr

private theorem credentials_parseMessage {c : Crypto} {q2 s : Fin N} {w w' : World N}
    (h : (parseMessage c q2).run w = .ok () w') :
    (w'.servers s).credentials = (w.servers s).credentials := by
  obtain ⟨_, cmds, _, _, hx⟩ := parseMessage_ok h
  have hkeep := (keeps_forM fun cmd _ ↦ keeps_credentials_exec c q2 s cmd).ok hx
  exact hkeep

private theorem keeps_credentials_turnAway (i : Nat) (s : Fin N) :
    Keeps (fun w : World N ↦ (w.servers s).credentials) (turnAway i) :=
  keeps_bind (fun _ ↦ rfl) fun _ ↦ keeps_bind (keeps_server_logEvent _ s) fun _ ↦
    keeps_removeServerSocket (fun _ _ ↦ rfl) s

private theorem keeps_credentials_hangUp (q2 s : Fin N) (i : Nat) :
    Keeps (fun w ↦ (w.servers s).credentials) (hangUp (some q2) i) := by
  refine keeps_bind (keeps_modifyServer q2 s fun _ ↦ rfl) fun _ ↦ ?_
  exact keeps_bind (fun _ ↦ rfl) fun _ ↦ keeps_bind (keeps_server_logEvent _ s) fun _ ↦
    keeps_removeServerSocket (fun _ _ ↦ rfl) s

private theorem keeps_credentials_answerPeer (c : Crypto) (i : Nat) (request : UInt8)
    (s : Fin N) : Keeps (fun w : World N ↦ (w.servers s).credentials) (answerPeer c i request) := by
  refine keeps_ite (keeps_bind (fun _ ↦ rfl) fun w ↦ ?_) (keeps_pure _)
  dsimp only
  split
  · exact keeps_throw _
  · exact keeps_bind (keeps_server_logEvent _ s) fun _ ↦ keeps_server_logEvent _ s

/-- Only a HELLO for the server changes its credentials. -/
theorem credentials_step {c : Crypto} {m : Move} {w w' : World N} {s : Fin N}
    (h : step c m w = some w') (hs : NoHelloFor c s m w) :
    (w'.servers s).credentials = (w.servers s).credentials := by
  cases m with
  | poll ready =>
    rw [step_poll h]
  | serve env =>
    obtain ⟨_, w₁, hrun, rfl⟩ := step_serve h
    change (w₁.servers s).credentials = _
    rcases serveSlot_ok hrun with ⟨_, rfl⟩ | ⟨_, _, hacc⟩ | ⟨hr, hl, hserved⟩
    · rfl
    · cases ha : env.accept with
      | none =>
        rw [ha] at hacc
        cases hacc
        rfl
      | some fd =>
        rw [ha] at hacc
        cases hacc
        rfl
    · cases hserved with
      | hangUp q2 _ _ run =>
        have hkeep := (keeps_credentials_hangUp q2 s _).ok run
        exact hkeep
      | message q2 _ _ run =>
        have hkeep := credentials_parseMessage (s := s) run
        exact hkeep
      | first owner first m read run =>
        cases first with
        | peer request =>
          have hkeep := (keeps_bind (keeps_credentials_answerPeer c _ request s) fun _ ↦
            keeps_removeServerSocket (fun _ _ ↦ rfl) s).ok run
          exact hkeep
        | stranger =>
          have hkeep := (keeps_credentials_turnAway _ s).ok run
          exact hkeep
        | hello h =>
          obtain ⟨found, w₂, h₂, run⟩ := run_bind_ok run
          have hne (q2 : Fin N) (hq : w.serverOfKey h.key = some q2) : q2 ≠ s := by
            unfold NoHelloFor moveEffect World.effect World.firstEffect at hs
            dsimp only at hs
            rw [if_neg (by simp [hr]), if_neg hl, owner, read] at hs
            dsimp only at hs
            rw [hq] at hs
            exact hs
          have hcred := credentials_registerHello h₂ hne
          cases found with
          | none => exact ((keeps_credentials_turnAway _ s).ok run).trans hcred
          | some q2 => exact (credentials_parseMessage run).trans hcred

/-- The moments of a connection after its HELLO: commands of the server have run and the loop
has taken steps, none of them another HELLO for the server. -/
inductive Afterwards (c : Crypto) (q2 : Fin N) (w : World N) : World N → Prop
  | refl : Afterwards c q2 w w
  | command {w₁ w₂ : World N} (cmd : Command) (m : MsgBuffer) (h : Afterwards c q2 w w₁)
      (run : (exec c q2 cmd).run { w₁ with msg := m } = .ok () w₂) : Afterwards c q2 w w₂
  | step {w₁ w₂ : World N} (m : Move) (h : Afterwards c q2 w w₁) (other : NoHelloFor c q2 m w₁)
      (run : Q2Admin.step c m w₁ = some w₂) : Afterwards c q2 w w₂

/-- Throughout a connection the client has to prove itself with the same things. -/
theorem Afterwards.credentials {c : Crypto} {q2 : Fin N} {w w' : World N}
    (h : Afterwards c q2 w w') : (w'.servers q2).credentials = (w.servers q2).credentials := by
  induction h with
  | refl => rfl
  | command cmd m _ run ih => exact ((keeps_credentials_exec c q2 q2 cmd).ok run).trans ih
  | step m _ other run ih => exact (credentials_step run other).trans ih

/-- The block of an AUTH. -/
def readAnswer : BufM (List UInt8) := do
  let len ← msgReadShort
  let cipher ← msgReadData len.toNat
  pure cipher.bytes

/-- `VerifyClientChallenge` reads the block of an AUTH and then acts on it. -/
theorem verify_splits (c : Crypto) (q2 : Fin N) :
    Splits inMsg (verifyClientChallenge c q2) readAnswer (checkAnswer c q2) :=
  splits_zoom_bind fun _ ↦ splits_zoom_bind fun cipher ↦
    splits_pure inMsg (checkAnswer c q2) cipher.bytes

private theorem checkAnswer_of_accepts {c : Crypto} {q2 : Fin N} {cipher : List UInt8}
    {w : World N} (hlen : cipher.length ≤ rsaLen)
    (h : (w.servers q2).accepts c cipher = true) :
    ∃ w', (checkAnswer c q2 cipher).run w = .ok true w' := by
  unfold Q2Server.accepts at h
  unfold checkAnswer
  have hserver : (server q2).run w = .ok (w.servers q2) w := rfl
  rw [if_neg (Nat.not_lt.mpr hlen), run_bind_of_ok hserver]
  cases hk : (w.servers q2).publickey with
  | none =>
    rw [hk] at h
    cases h
  | some k =>
    rw [hk] at h
    have hd := of_decide_eq_true h
    have hsize := (w.servers q2).connection.clChallenge.length_eq
    have hlog : (logEvent (.used q2 .key k.handle)).run w = .ok () (w.deciphered q2 k) := rfl
    dsimp only
    rw [run_bind_of_ok hlog, hd]
    dsimp only
    rw [hsize, if_neg (by decide), if_neg (by decide), if_pos rfl]
    rw [run_bind_of_ok (grantTrust_run q2 _)]
    exact ⟨_, rfl⟩

/-- `VerifyClientChallenge` accepts what the record accepts. -/
theorem verify_iff {c : Crypto} {q2 : Fin N} {w : World N} {m m' : MsgBuffer}
    {cipher : List UInt8} (hread : readAnswer.run m = .ok cipher m')
    (hlen : cipher.length ≤ rsaLen) :
    (∃ w', (verifyClientChallenge c q2).run { w with msg := m } = .ok true w' ∧
      (w'.servers q2).trusted = true) ↔ (w.servers q2).accepts c cipher = true := by
  constructor
  · rintro ⟨w', hv, _⟩
    obtain ⟨cipher', m₁, hr, hc⟩ := (verify_splits c q2 _ _ _).mp hv
    have hr' : readAnswer.run m = .ok cipher' m₁ := hr
    rw [hread] at hr'
    cases hr'
    exact (core_checkAnswer hc).1.symm
  · intro ha
    obtain ⟨w', hw'⟩ := checkAnswer_of_accepts (w := { w with msg := m' }) hlen ha
    refine ⟨w', (verify_splits c q2 _ _ _).mpr ⟨cipher, m', hread, hw'⟩, ?_⟩
    have hcore := (core_checkAnswer hw').2
    have hrec := congrArg (fun k : Core N ↦ (k.records q2).trusted) hcore
    rw [if_pos rfl, Core.grant, Core.log_records, Core.updateRecord_self] at hrec
    exact hrec

/-- The challenge in a HELLOACK: its last bytes. -/
def ackChallenge (plain : List UInt8) : List UInt8 := plain.drop (plain.length - challengeLen)

/-- The answer to every HELLO that is answered with this challenge ends with it, and on the
connection every later AUTH of at most `RSA_LEN` bytes is accepted if and only if it decrypts to
these last bytes of what was sent. Before the answer the output buffer holds what has been written
to it, as it does in every state that a run reaches. -/
def ExactHandshake (challenge : Field 16) : Prop :=
  ∀ (N : Nat) (c : Crypto) (env : HelloEnv) (q2 : Fin N) (theirs : Field 16) (w w₁ : World N)
    (waiting : List UInt8),
    env.challenge = challenge → (w.servers q2).connected = true →
    (w.servers q2).msg = .ofBytes waiting →
    (serverAuthResponse c env q2 theirs).run w = .ok true w₁ →
    ∃ fd plain wire, w₁.trace.head? = some (.sent fd plain wire) ∧
      ackChallenge plain = challenge.bytes ∧
      ∀ (w₂ : World N) (m m' : MsgBuffer) (cipher : List UInt8), Afterwards c q2 w₁ w₂ →
        readAnswer.run m = .ok cipher m' → cipher.length ≤ rsaLen →
        ((∃ w₃, (verifyClientChallenge c q2).run { w₂ with msg := m } = .ok true w₃ ∧
            (w₃.servers q2).trusted = true) ↔
          ∃ k, (w₂.servers q2).publickey = some k ∧
            c.rsaPublicDecrypt k.key cipher = some (ackChallenge plain))

private theorem ackChallenge_append (bs : List UInt8) (challenge : Field 16) :
    ackChallenge (bs ++ challenge.bytes) = challenge.bytes := by
  unfold ackChallenge
  rw [List.length_append, challenge.length_eq]
  exact List.drop_left' (Nat.add_sub_cancel _ _).symm

/-- The answer to a HELLO is sent at once, and the challenge is at its end. -/
theorem challenge_sent {c : Crypto} {env : HelloEnv} {q2 : Fin N} {theirs : Field 16}
    {w w₁ : World N} {waiting : List UInt8} (hc : (w.servers q2).connected = true)
    (hmsg : (w.servers q2).msg = .ofBytes waiting)
    (hrun : (serverAuthResponse c env q2 theirs).run w = .ok true w₁) :
    ∃ fd plain wire, w₁.trace.head? = some (.sent fd plain wire) ∧
      ackChallenge plain = env.challenge.bytes := by
  obtain ⟨_, hb⟩ := serverAuthResponse_ok hrun
  rw [if_pos rfl] at hb
  obtain ⟨m, hm, hsend⟩ := hb
  have hself : ((w.answered env q2).holding q2 m).servers q2 =
      (((w.servers q2).challenge env).share env).hold m := by
    rw [World.holding_self, World.answered_self]
  rcases sendBuffer_cases hsend with ⟨hidle, _⟩ | ⟨_, _, _, rfl⟩
  · rw [hself] at hidle
    rcases hidle with hidle | hempty
    · have hno : (w.servers q2).connected = false := hidle
      rw [hc] at hno
      cases hno
    · have hlen : m.length = 0 := hempty
      rw [hm.length] at hlen
      unfold HelloEnv.ack at hlen
      rw [List.length_append, env.challenge.length_eq] at hlen
      omega
  · refine ⟨_, _, _, rfl, ?_⟩
    rw [hself]
    change ackChallenge m.contents = _
    rw [hm.bytes waiting hmsg, MsgBuffer.contents_ofBytes]
    unfold HelloEnv.ack
    rw [← List.append_assoc]
    exact ackChallenge_append _ _

-- A server that has said HELLO, with the empty key.
private def greetedServer : World 1 :=
  { sampleStart with
    servers := fun q2 ↦
      { sampleStart.servers q2 with
        index := 1, socket := 4, connected := true, publickey := some ⟨0, []⟩ } }

-- A signature is available for every challenge.
private def signingEnv (challenge : Field 16) : HelloEnv :=
  ⟨.missing, challenge, fun _ ↦ .signed [42], .zero 16, .zero 16, .zero 256⟩

private theorem hello_answered (challenge : Field 16) :
    ∃ w₁, (serverAuthResponse Crypto.clear (signingEnv challenge) 0 (.zero 16)).run greetedServer =
        .ok true w₁ ∧ (w₁.servers 0).publickey = some ⟨0, []⟩ := by
  let ack : BufM Unit := do
    msgWriteByte scmdHelloAck
    msgWriteShort (1 : Nat).toUInt16
    msgWriteData [42] 1
  have hack : Writes ack ([scmdHelloAck] ++ (shortBytes (1 : Nat).toUInt16 ++ [42])) :=
    writes_bind (writes_byte _) (writes_bind (writes_short _) (writes_data [42] 1 (by decide)))
  have hchallenge : Writes (msgWriteData challenge.bytes challengeLen) challenge.bytes := by
    have h := writes_data challenge.bytes challengeLen (by rw [challenge.length_eq]; decide)
    rwa [List.take_of_length_le (by rw [challenge.length_eq]; decide)] at h
  let w₁ := greetedServer.updateServer 0 fun s ↦
    { s with connection := { s.connection with clChallenge := strncpy 16 challenge.bytes } }
  let w₂ := w₁.updateServer 0 fun s ↦
    { s with msg := .ofBytes ([] ++ ([scmdHelloAck] ++ (shortBytes (1 : Nat).toUInt16 ++ [42]))) }
  let w₃ := w₂.updateServer 0 fun s ↦
    { s with msg := .ofBytes ([] ++ ([scmdHelloAck] ++ (shortBytes (1 : Nat).toUInt16 ++ [42])) ++
        challenge.bytes) }
  let w₄ : World 1 := { w₃.updateServer 0 fun s ↦ { s with msg := .zero } with
    trace := .sent (w₃.wireOf 0) (w₃.servers 0).msg.contents (w₃.servers 0).msg.contents ::
      w₃.trace }
  have h₁ : (modifyServer 0 fun s ↦ { s with connection :=
      { s.connection with clChallenge := strncpy 16 challenge.bytes } }).run greetedServer =
        .ok () w₁ := rfl
  have hempty : (w₁.servers 0).msg = .ofBytes [] := rfl
  have h₂ : (onOut 0 ack).run w₁ = .ok () w₂ := onOut_run hack hempty (by decide)
  have hsession : (sendSessionKey (signingEnv challenge) 0).run w₂ = .ok () w₂ := rfl
  have h₃ : (onOut 0 (msgWriteData challenge.bytes challengeLen)).run w₂ = .ok () w₃ :=
    onOut_run (w := w₂) hchallenge rfl (by rw [challenge.length_eq]; decide)
  have hsend : (sendBuffer Crypto.clear 0).run w₃ = .ok () w₄ := rfl
  refine ⟨w₄, ?_, rfl⟩
  unfold serverAuthResponse signClientChallenge signingEnv
  rw [run_bind_of_ok h₁]
  dsimp only
  rw [if_neg (by decide), if_neg (by decide)]
  refine (run_bind_of_ok h₂).trans ((run_bind_of_ok hsession).trans ?_)
  rw [run_bind_of_ok h₃, run_bind_of_ok hsend]
  rfl

-- An AUTH with the challenge itself as its block.
private def answerOf (challenge : Field 16) : MsgBuffer :=
  .received (shortBytes 16 ++ challenge.bytes)

private theorem answerOf_read (challenge : Field 16) :
    ∃ m', readAnswer.run (answerOf challenge) = .ok challenge.bytes m' := by
  have hdata : Reads (msgReadData 16) challenge.bytes challenge := (decodes_data 16).reads rfl
  have hread : Reads readAnswer (shortBytes 16 ++ challenge.bytes) challenge.bytes :=
    reads_bind (reads_short 16) (reads_map Field.bytes hdata)
  have hlen : (answerOf challenge).data.length ≤ msgSpace := by
    unfold answerOf MsgBuffer.received
    rw [List.length_append, challenge.length_eq]
    decide
  exact ⟨_, hread _ (stands_of_drop hlen (List.append_nil _).symm)⟩

-- The challenge that is kept is the one that was sent, if the handshake is exact.
private theorem kept_of_exact {challenge : Field 16} (h : ExactHandshake challenge) :
    strncpy 16 challenge.bytes = challenge := by
  obtain ⟨w₁, hrun, hkey⟩ := hello_answered challenge
  obtain ⟨m', hread⟩ := answerOf_read challenge
  have hlen : challenge.bytes.length ≤ rsaLen := by
    rw [challenge.length_eq]
    decide
  obtain ⟨_, plain, _, _, hlast, haccepted⟩ :=
    h 1 Crypto.clear (signingEnv challenge) 0 (.zero 16) greetedServer w₁ [] rfl rfl rfl hrun
  have hsigned : Crypto.clear.rsaPublicDecrypt [] challenge.bytes = some (ackChallenge plain) := by
    rw [hlast]
    rfl
  obtain ⟨_, hverify⟩ := haccepted w₁ _ m' challenge.bytes .refl hread hlen
  have haccepts := (verify_iff hread hlen).mp (hverify ⟨⟨0, []⟩, hkey, hsigned⟩)
  obtain ⟨_, _, hrec⟩ := seen_serverAuthResponse hrun
  have hkept : (w₁.servers 0).connection.clChallenge = strncpy 16 challenge.bytes :=
    congrArg (fun r ↦ r.credentials.2) (hrec rfl)
  unfold Q2Server.accepts at haccepts
  rw [hkey, hkept] at haccepts
  have hd : some challenge.bytes = some (strncpy 16 challenge.bytes).bytes :=
    of_decide_eq_true haccepts
  exact Field.ext (Option.some.inj hd).symm

/-- The handshake is exact for the challenges in which no zero byte is followed by a nonzero
one. -/
theorem exactHandshake_iff (challenge : Field 16) :
    ExactHandshake challenge ↔
      ∀ i j : Nat, i < j → challenge.bytes[i]? = some 0 → ∀ b ∈ challenge.bytes[j]?, b = 0 := by
  rw [← strncpy_eq_self_iff]
  refine ⟨kept_of_exact, fun hkept N c env q2 theirs w w₁ waiting henv hc hmsg hrun ↦ ?_⟩
  subst henv
  obtain ⟨fd, plain, wire, hhead, hlast⟩ := challenge_sent hc hmsg hrun
  refine ⟨fd, plain, wire, hhead, hlast, fun w₂ m m' cipher hlater hread hlen ↦ ?_⟩
  obtain ⟨_, _, hrec⟩ := seen_serverAuthResponse hrun
  have hstored : (w₂.servers q2).connection.clChallenge = env.challenge := by
    have h₂ : (w₂.servers q2).credentials.2 = (w₁.servers q2).credentials.2 :=
      congrArg Prod.snd hlater.credentials
    have h₁ : (w₁.servers q2).credentials.2 = strncpy 16 env.challenge.bytes :=
      congrArg (fun r ↦ r.credentials.2) (hrec rfl)
    exact h₂.trans (h₁.trans hkept)
  rw [verify_iff hread hlen]
  unfold Q2Server.accepts
  rw [hstored, hlast]
  cases (w₂.servers q2).publickey with
  | none => simp
  | some k => simp

/-- A client that returns the challenge it was sent is refused if a zero byte in it is
followed by another byte. -/
theorem honest_client_refused : ¬ ∀ challenge : Field 16, ExactHandshake challenge := by
  intro h
  have hkept := kept_of_exact (h ⟨[0, 1, 0, 0, 0, 0, 0, 0, 0, 0, 0, 0, 0, 0, 0, 0], rfl⟩)
  revert hkept
  decide

end Q2Admin
