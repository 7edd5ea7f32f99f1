import Q2Admin.Base.Coupled
import Q2Admin.Session.Turn

/-!
# Two systems that say the same

Library `Q2Admin.Session`. Source `server.c:317–343` and everything that calls `SendBuffer`. Two
states are alike when they differ in nothing but the bytes on the wire. The functions of the source
are run with two ciphers side by side, one lemma for each function that sends: from states that are
alike they lead to states that are alike. The cipher matters where a message is deciphered, too,
which is not treated here.
-/

namespace Q2Admin

open Exec

variable {N : Nat} {α : Type}

/-- The event with the text of a message in the place of the bytes on the wire. -/
def Event.spoken : Event → Event
  | .sent fd plain _ => .sent fd plain plain
  | e => e

/-- The same state, in which the same has been said. -/
def SameSpeech (w w' : World N) : Prop :=
  ∃ t, w' = { w with trace := t } ∧ t.map Event.spoken = w.trace.map Event.spoken

/-- Every state speaks as itself. -/
theorem SameSpeech.refl (w : World N) : SameSpeech w w := ⟨w.trace, rfl, rfl⟩

/-- The same update of both states. -/
theorem SameSpeech.update {w w' : World N} (h : SameSpeech w w') {f : World N → World N}
    (hf : ∀ (w : World N) t, f { w with trace := t } = { f w with trace := t })
    (htrace : ∀ w, (f w).trace = w.trace) : SameSpeech (f w) (f w') := by
  obtain ⟨t, rfl, ht⟩ := h
  exact ⟨t, hf w t, by rw [htrace, ht]⟩

/-- What does not look at the past does the same in both states. -/
theorem Detached.speech {x : M N α} (h : Detached x) : Coupled SameSpeech Eq x x := by
  rintro w _ ⟨t, rfl, ht⟩
  have hr := h w.msg w.trace t w { w with trace := t } ⟨[], rfl, rfl⟩
  have hkeep := h.blind.keeps w
  -- The message is untouched, and the same events are in front of those from before.
  have hback {v v' : World N} (hmsg : v.msg = w.msg) (hs : Shifted w.msg w.trace t v v') :
      SameSpeech v v' := by
    obtain ⟨e, htrace, rfl⟩ := hs
    refine ⟨e ++ t, by rw [← hmsg], ?_⟩
    rw [htrace, List.map_append, List.map_append, ht]
  cases hx : x.run w with
  | ok a v =>
    rw [final_of_ok hx] at hkeep
    cases hx' : x.run { w with trace := t } with
    | ok b v' =>
      rw [hx, hx'] at hr
      exact ⟨hr.1, hback hkeep hr.2⟩
    | error e v' =>
      rw [hx, hx'] at hr
      exact hr.elim
  | error e v =>
    rw [final_of_error hx] at hkeep
    cases hx' : x.run { w with trace := t } with
    | ok b v' =>
      rw [hx, hx'] at hr
      exact hr.elim
    | error e' v' =>
      rw [hx, hx'] at hr
      exact ⟨hr.1, hback hkeep hr.2⟩

/-- What only talks speaks the same in states that speak the same. -/
theorem Talks.speech {x : M N α} (h : Talks x) : Coupled SameSpeech Eq x x := h.detached.speech

/-- Readers of the message read the same. -/
theorem speech_onMsg (x : BufM α) : Coupled SameSpeech Eq (onMsg x : M N α) (onMsg x) := by
  refine (mirrors_zoom ?_ ?_).coupled
  · rintro w _ ⟨t, rfl, _⟩
    rfl
  · intro m w w' h
    exact h.update (fun _ _ ↦ rfl) fun _ ↦ rfl

private theorem speech_get : Coupled SameSpeech SameSpeech (get : M N (World N)) get :=
  fun _ _ h ↦ ⟨h, h⟩

/-- Events that say the same. -/
theorem speech_logEvent {e e' : Event} (h : e'.spoken = e.spoken) :
    Coupled SameSpeech Eq (logEvent e : M N Unit) (logEvent e') := by
  rintro w _ ⟨t, rfl, ht⟩
  exact ⟨rfl, e' :: t, rfl, congrArg₂ List.cons h ht⟩

/-- The ciphers differ, and nothing else. -/
structure Crypto.Akin (c c' : Crypto) : Prop where
  rsa : c'.rsaPublicDecrypt = c.rsaPublicDecrypt
  inet : c'.inetPton = c.inetPton

section Programs

variable (c c' : Crypto) (q2 : Fin N)

/-- A message can be enciphered with one cipher exactly if it can with the other. -/
theorem speech_wireForm (plain : List UInt8) :
    Coupled SameSpeech (fun _ _ ↦ True) (wireForm c q2 plain) (wireForm c' q2 plain) := by
  apply coupled_bind_eq (talks_server q2).speech
  intro s
  refine coupled_ite ?_ (coupled_pure trivial)
  apply coupled_bind_eq (talks_server q2).speech
  intro s
  cases s.connection.eCtx with
  | none => exact coupled_throw _
  | some h =>
    apply coupled_bind_eq (speech_logEvent rfl)
    intro _
    dsimp only
    rw [c.aesEncrypt_length, c'.aesEncrypt_length]
    exact coupled_ite (coupled_throw _) (coupled_pure trivial)

private theorem speech_sendBuffer : Coupled SameSpeech Eq (sendBuffer c q2) (sendBuffer c' q2) := by
  apply coupled_bind_eq (talks_server q2).speech
  intro s
  refine coupled_ite (coupled_pure rfl) (coupled_ite (coupled_pure rfl) ?_)
  apply coupled_bind (speech_wireForm c c' q2 _)
  intro wire wire' _
  apply coupled_bind_eq (talks_look fun _ _ _ ↦ rfl).speech
  intro p
  have hsaid : (Event.sent p.fd s.msg.contents wire').spoken =
      (Event.sent p.fd s.msg.contents wire).spoken := rfl
  apply coupled_bind_eq (speech_logEvent hsaid)
  intro _
  exact (detached_modifyServer q2 _).speech

private theorem speech_sendError (error id : UInt8) (msg : List UInt8) :
    Coupled SameSpeech Eq (sendError c q2 error id msg) (sendError c' q2 error id msg) :=
  coupled_bind_eq (talks_onOut q2 _).speech fun _ ↦ speech_sendBuffer c c' q2

private theorem speech_pong : Coupled SameSpeech Eq (pong c q2) (pong c' q2) :=
  coupled_bind_eq (talks_onOut q2 _).speech fun _ ↦
    coupled_bind_eq (detached_modifyServer q2 _).speech fun _ ↦ speech_sendBuffer c c' q2

private theorem speech_parsePrint : Coupled SameSpeech Eq (parsePrint : M N Unit) parsePrint :=
  coupled_bind_eq (speech_onMsg _) fun _ ↦
    coupled_bind_eq (speech_onMsg _) fun _ ↦ coupled_pure rfl

private theorem speech_teleport (clientId : UInt8) (location : List UInt8) :
    Coupled SameSpeech Eq (teleport c q2 clientId location) (teleport c' q2 clientId location) := by
  refine coupled_ite ?_ ?_
  · exact coupled_bind_eq talks_buildTeleportServers.speech fun _ ↦
      coupled_bind_eq (talks_clientText q2 _ _ _).speech fun _ ↦ speech_sendBuffer c c' q2
  · apply coupled_bind_eq (talks_look fun _ _ _ ↦ rfl).speech
    intro found
    cases found with
    | some f =>
      exact coupled_bind_eq (talks_server f).speech fun _ ↦
        coupled_bind_eq (talks_va _).speech fun _ ↦ coupled_bind_eq (talks_va _).speech fun _ ↦
          coupled_bind_eq (talks_clientText q2 _ _ _).speech fun _ ↦
            coupled_bind_eq (talks_strAt _).speech fun _ ↦
              coupled_bind_eq (talks_onOut q2 _).speech fun _ ↦ speech_sendBuffer c c' q2
    | none =>
      exact coupled_bind_eq (talks_va _).speech fun _ ↦
        coupled_bind_eq (talks_clientText q2 _ _ _).speech fun _ ↦ speech_sendBuffer c c' q2

private theorem speech_sayAll (message : List UInt8) :
    Coupled SameSpeech Eq (sayAll c message q2) (sayAll c' message q2) :=
  coupled_bind_eq (talks_server q2).speech fun _ ↦ coupled_ite (coupled_pure rfl)
    (coupled_bind_eq (talks_onOut q2 _).speech fun _ ↦ speech_sendBuffer c c' q2)

private theorem speech_invite (clientId : UInt8) (text : List UInt8) :
    Coupled SameSpeech Eq (invite c q2 clientId text) (invite c' q2 clientId text) :=
  coupled_bind_eq (talks_server q2).speech fun _ ↦ coupled_bind_eq (talks_va _).speech fun _ ↦
    coupled_bind_eq (talks_strAt _).speech fun _ ↦ coupled_forM fun s _ ↦ speech_sayAll c c' s _

private theorem speech_parseCommand :
    Coupled SameSpeech Eq (parseCommand c q2) (parseCommand c' q2) := by
  apply coupled_bind_eq (speech_onMsg _)
  intro kind
  cases CommandKind.ofByte kind with
  | none => exact coupled_pure rfl
  | some kind =>
    cases kind with
    | teleport =>
      exact coupled_bind_eq (speech_onMsg _) fun _ ↦
        coupled_bind_eq (speech_onMsg _) fun _ ↦ speech_teleport c c' q2 _ _
    | invite =>
      exact coupled_bind_eq (speech_onMsg _) fun _ ↦
        coupled_bind_eq (speech_onMsg _) fun _ ↦ speech_invite c c' q2 _ _
    | whois => exact coupled_pure rfl

private theorem speech_playerListLoop (fuel : Nat) (i : UInt8) :
    Coupled SameSpeech Eq (playerListLoop q2 fuel i) (playerListLoop q2 fuel i) := by
  induction fuel generalizing i with
  | zero => exact coupled_throw _
  | succ fuel ih =>
    refine coupled_bind_eq (talks_server q2).speech fun s ↦ coupled_ite ?_ (coupled_pure rfl)
    exact coupled_bind_eq (speech_onMsg _) fun clientId ↦
      coupled_bind_eq (speech_onMsg _) fun userinfo ↦
        coupled_bind_eq (detached_listPlayer q2 i clientId userinfo).speech fun _ ↦ ih _

private theorem speech_acceptAuth : Coupled SameSpeech Eq (acceptAuth c q2) (acceptAuth c' q2) :=
  coupled_bind_eq (talks_onOut q2 _).speech fun _ ↦ speech_sendBuffer c c' q2

private theorem speech_concludeAuth (verified : Bool) :
    Coupled SameSpeech Eq (concludeAuth c q2 verified) (concludeAuth c' q2 verified) := by
  refine coupled_ite (speech_acceptAuth c c' q2) ?_
  refine coupled_bind_eq ?_ fun _ ↦ speech_acceptAuth c c' q2
  exact coupled_bind_eq (talks_onOut q2 _).speech fun _ ↦
    coupled_bind_eq (speech_sendBuffer c c' q2) fun _ ↦ (detached_closeConnection q2).speech

private theorem speech_serverAuthResponse (env : HelloEnv) (challenge : Field 16) :
    Coupled SameSpeech Eq (serverAuthResponse c env q2 challenge)
      (serverAuthResponse c' env q2 challenge) := by
  apply coupled_bind_eq (detached_modifyServer q2 _).speech
  intro _
  refine coupled_ite (coupled_throw _) (coupled_ite ?_ ?_)
  · exact coupled_bind_eq (talks_server q2).speech fun _ ↦
      coupled_bind_eq (talks_release q2 _ _).speech fun _ ↦ coupled_pure rfl
  · exact coupled_bind_eq (talks_onOut q2 _).speech fun _ ↦
      coupled_bind_eq (detached_sendSessionKey env q2).speech fun _ ↦
        coupled_bind_eq (talks_onOut q2 _).speech fun _ ↦
          coupled_bind_eq (speech_sendBuffer c c' q2) fun _ ↦ coupled_pure rfl

private theorem speech_registerHello (env : HelloEnv) (index : Nat) (h : Hello) :
    Coupled SameSpeech Eq (registerHello c env index h : M N _) (registerHello c' env index h) := by
  apply coupled_bind_eq (talks_look fun _ _ _ ↦ rfl).speech
  intro found
  cases found with
  | none => exact coupled_pure rfl
  | some q2 =>
    have hbind : Detached (bindServer env h index q2) :=
      detached_bind (detached_look fun _ _ _ ↦ rfl) fun _ ↦
        detached_bind (detached_modifyServer q2 _) fun _ ↦
          detached_bind (detached_logEvent _) fun _ ↦ detached_loadClientPublicKey env q2
    refine coupled_bind_eq hbind.speech fun _ ↦
      coupled_bind_eq (speech_serverAuthResponse c c' q2 env _) fun answered ↦ ?_
    exact coupled_ite (coupled_pure rfl)
      (coupled_bind_eq (speech_sendError c c' q2 _ _ _) fun _ ↦ coupled_pure rfl)

private theorem speech_turnAway (i : Nat) :
    Coupled SameSpeech Eq (turnAway i : M N Unit) (turnAway i) :=
  coupled_bind_eq (talks_look fun _ _ _ ↦ rfl).speech fun _ ↦
    coupled_bind_eq (speech_logEvent rfl) fun _ ↦ detached_removeServerSocket.speech

end Programs

section Akin

variable {c c' : Crypto} (h : c.Akin c')

include h

/-- An AUTH is parsed alike under ciphers that are akin. -/
theorem Crypto.Akin.parseAuth (q2 : Fin N) :
    Coupled SameSpeech Eq (parseAuth c q2) (parseAuth c' q2) := by
  refine coupled_bind_eq ?_ fun verified ↦ speech_concludeAuth c c' q2 verified
  apply coupled_bind_eq (speech_onMsg _)
  intro len
  apply coupled_bind_eq (speech_onMsg _)
  intro cipher
  have hcheck : checkAnswer c' q2 cipher.bytes = checkAnswer c q2 cipher.bytes := by
    unfold checkAnswer
    rw [h.rsa]
  rw [hcheck]
  exact (detached_checkAnswer c q2 cipher.bytes).speech

/-- A command is parsed alike under ciphers that are akin. -/
theorem Crypto.Akin.parseNext (q2 : Fin N) :
    Coupled SameSpeech Eq (parseNext c q2) (parseNext c' q2) := by
  apply coupled_bind_eq (speech_onMsg _)
  intro cmd
  cases ClientCmd.ofByte cmd with
  | none => exact coupled_pure rfl
  | some kind =>
    cases kind with
    | auth => exact h.parseAuth q2
    | quit => exact (detached_closeConnection q2).speech
    | ping => exact speech_pong c c' q2
    | print => exact speech_parsePrint
    | command => exact speech_parseCommand c c' q2
    | connect =>
      exact coupled_bind_eq (speech_onMsg _) fun _ ↦
        coupled_bind_eq (speech_onMsg _) fun _ ↦ (detached_playerConnect q2 _ _).speech
    | playerupdate =>
      exact coupled_bind_eq (speech_onMsg _) fun _ ↦
        coupled_bind_eq (speech_onMsg _) fun _ ↦ (detached_enterPlayer q2 _ _).speech
    | disconnect =>
      exact coupled_bind_eq (speech_onMsg _) fun _ ↦ (detached_modifyServer q2 _).speech
    | playerlist =>
      exact coupled_bind_eq (speech_onMsg _) fun _ ↦
        coupled_bind_eq (detached_modifyServer q2 _).speech fun _ ↦ speech_playerListLoop q2 _ _
    | map => exact coupled_bind_eq (speech_onMsg _) fun _ ↦ (detached_modifyServer q2 _).speech
    | _ => exact coupled_pure rfl

/-- A message is parsed alike under ciphers that are akin. -/
theorem Crypto.Akin.parseLoop (q2 : Fin N) (n : Nat) :
    Coupled SameSpeech Eq (parseLoop c q2 n) (parseLoop c' q2 n) := by
  induction n with
  | zero => exact coupled_pure rfl
  | succ n ih =>
    apply coupled_bind speech_get
    rintro w _ ⟨t, rfl, _⟩
    exact coupled_ite (coupled_bind_eq (h.parseNext q2) fun _ ↦ ih) (coupled_pure rfl)

/-- A message that needs no deciphering. -/
theorem Crypto.Akin.parseMessage {q2 : Fin N} {w w' : World N} (hw : SameSpeech w w')
    (hs : (w.servers q2).secure = false) :
    Outcomes SameSpeech Eq ((parseMessage c q2).run w) ((parseMessage c' q2).run w') := by
  have hs' : (w'.servers q2).secure = false := by
    obtain ⟨t, rfl, _⟩ := hw
    exact hs
  unfold Q2Admin.parseMessage
  rw [run_bind_of_ok (decryptMessage_of_plain hs), run_bind_of_ok (decryptMessage_of_plain hs')]
  exact h.parseLoop q2 parseRounds w w' hw

/-- A peer is answered alike under ciphers that are akin. -/
theorem Crypto.Akin.answerPeer (i : Nat) (request : UInt8) :
    Coupled SameSpeech Eq (answerPeer c i request : M N Unit) (answerPeer c' i request) := by
  refine coupled_ite (coupled_bind speech_get ?_) (coupled_pure rfl)
  rintro w _ ⟨t, rfl, _⟩
  have hlist : peerList c' = peerList c := by
    unfold peerList
    rw [h.inet]
  dsimp only
  rw [hlist]
  cases (peerList c _).run MsgBuffer.zero with
  | error e m => exact coupled_throw e
  | ok _ m => exact coupled_bind_eq (speech_logEvent rfl) fun _ ↦ speech_logEvent rfl

/-- A first message that does not lead to one that is deciphered. -/
theorem Crypto.Akin.actFirst {env : HelloEnv} {i : Nat} {first : First} {w w' : World N}
    (hw : SameSpeech w w') (hopen : ∀ hello q2, first = .hello hello →
      w.serverOfKey hello.key = some q2 → env.answers hello.challenge = true →
      ((w.servers q2).greeted env hello).secure = false) :
    Outcomes SameSpeech Eq ((actFirst c env i first).run w) ((actFirst c' env i first).run w') := by
  cases first with
  | peer request =>
    exact coupled_bind_eq (h.answerPeer i request)
      (fun _ ↦ detached_removeServerSocket.speech) w w' hw
  | stranger => exact speech_turnAway i w w' hw
  | hello hello =>
    refine (speech_registerHello c c' env i hello w w' hw).bind fun found _ w₁ w₁' hrun heq hw₁ ↦ ?_
    obtain rfl := heq
    cases found with
    | none => exact speech_turnAway i w₁ w₁' hw₁
    | some q2 =>
      refine h.parseMessage hw₁ ?_
      obtain ⟨_, hspec⟩ := seen_registerHello hrun
      cases hkey : w.serverOfKey hello.key with
      | none =>
        rw [hkey] at hspec
        cases hspec.1
      | some q =>
        rw [hkey] at hspec
        obtain ⟨hfound, _, hrec⟩ := hspec
        cases ha : env.answers hello.challenge with
        | false =>
          rw [ha] at hfound
          cases hfound
        | true =>
          rw [ha] at hfound
          cases hfound
          have hsecure := hopen hello q2 rfl hkey ha
          have hreception := hrec ha
          have he := congrArg Reception.encrypted hreception
          have ht := congrArg Reception.trusted hreception
          unfold Q2Server.secure at hsecure ⊢
          rw [← hsecure]
          exact congrArg₂ and he ht

end Akin

end Q2Admin
