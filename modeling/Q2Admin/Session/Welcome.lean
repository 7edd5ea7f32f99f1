import Q2Admin.Session.Room
import Q2Admin.Session.Hello

/-!
# What fits the reply to a HELLO

Library `Q2Admin.Session`. The reply is written behind what has piled up for its server, and both
are sent as one message, enciphered if the server is still trusted and asks for it.
`registerHello_error`: if that fits, a HELLO stops at nothing but a missing public key.
-/

namespace Q2Admin

open Exec

variable {N : Nat} {c : Crypto} {q2 : Fin N} {w w₁ w' : World N}

/-- The bytes of the reply to a HELLO, as many as the code counts. -/
def HelloEnv.replySize (env : HelloEnv) (h : Hello) : Nat :=
  if env.answers h.challenge then
    3 + (signClientChallenge env h.challenge).2 + (if h.encrypted ≠ 0 then rsaLen else 0) +
      challengeLen
  else helloRefusal.length

/-- The longest message that can be sent to a server. -/
def Q2Server.limit (s : Q2Server) : Nat := if s.secure then sealedSize else msgSize

/-- What a server may hold fits the buffer. -/
theorem Q2Server.limit_le (s : Q2Server) : s.limit ≤ msgSize := by
  unfold Q2Server.limit
  split
  · decide
  · exact Nat.le_refl _

/-- The reply to a HELLO of the server fits behind what waits for it. -/
def Q2Server.RoomFor (env : HelloEnv) (h : Hello) (s : Q2Server) : Prop :=
  s.msg.length + env.replySize h ≤
    Q2Server.limit { s with connection := { s.connection with encrypted := h.encrypted ≠ 0 } }

instance (s : Q2Server) (env : HelloEnv) (h : Hello) : Decidable (s.RoomFor env h) :=
  inferInstanceAs (Decidable (_ ≤ _))

/-- Writing leaves a trusted server its context. -/
theorem Poured.context {e : List UInt8} (h : Poured q2 e w w')
    (hctx : (w.servers q2).trusted = true → (w.servers q2).connection.eCtx ≠ none) :
    (w'.servers q2).trusted = true → (w'.servers q2).connection.eCtx ≠ none := by
  rw [h.trusted, h.eCtx]
  exact hctx

private theorem Poured.limit_eq {e : List UInt8} (h : Poured q2 e w w') :
    (w'.servers q2).limit = (w.servers q2).limit := by
  unfold Q2Server.limit
  rw [h.secure]

/-- Writing within the limit stays within the limit. -/
theorem Poured.limit {e : List UInt8} (h : Poured q2 e w w') (hin : w.Within)
    (hroom : (w.servers q2).msg.length + e.length ≤ (w.servers q2).limit) :
    (w'.servers q2).msg.length ≤ (w'.servers q2).limit := by
  rw [h.length hin, h.limit_eq]
  exact hroom

private theorem sendBuffer_returns (c : Crypto) (hin : (w.servers q2).msg.Within)
    (hctx : (w.servers q2).trusted = true → (w.servers q2).connection.eCtx ≠ none)
    (hlen : (w.servers q2).msg.length ≤ (w.servers q2).limit) :
    ∃ w', (sendBuffer c q2).run w = .ok () w' := by
  cases hc : (w.servers q2).connected with
  | false => exact ⟨w, sendBuffer_idle c hc⟩
  | true =>
    by_cases hz : (w.servers q2).msg.length = 0
    · exact ⟨w, sendBuffer_empty c hz⟩
    · refine ⟨_, sendBuffer_posted c hc hz (fun hs ↦ hctx (Bool.and_eq_true_iff.mp hs).2) ?_⟩
      intro hs
      obtain ⟨bs, hbs, _⟩ := hin
      rw [hbs, MsgBuffer.contents_ofBytes]
      rw [Q2Server.limit, if_pos hs, hbs] at hlen
      exact sealed_fits.mpr hlen

private theorem poured_shared (w : World N) (env : HelloEnv) (q2 : Fin N) :
    Poured q2 [] w (w.shared env q2) := by
  refine ⟨⟨fun s hs ↦ World.shared_of_ne _ _ hs, ?_, ?_⟩, ?_, fun bs hbs ↦ ?_⟩
  · rw [World.shared_self]
    rfl
  · rw [World.shared_self]
    exact Nat.le_refl _
  · rw [World.shared_self]
    rfl
  · rw [World.shared_self, List.append_nil]
    exact hbs

private theorem sendSessionKey_cases (env : HelloEnv) (q2 : Fin N) (hin : w.Within)
    (hroom : (w.servers q2).msg.length +
      (if (w.servers q2).connection.encrypted then rsaLen else 0) ≤ msgSize) :
    (∃ w', (sendSessionKey env q2).run w = .error .nullDeref w') ∨
      Pours q2 (if (w.servers q2).connection.encrypted then env.aeskeyCipher.bytes else [])
        (sendSessionKey env q2) w := by
  cases he : (w.servers q2).connection.encrypted with
  | false => exact .inr ⟨w, (sendSessionKey_plain env he).1, .of_servers rfl⟩
  | true =>
    rw [he] at hroom
    rcases sendSessionKey_run env he with ⟨v, _, herror⟩ | hrun
    · exact .inl ⟨v, herror⟩
    right
    have hshared := poured_shared w env q2
    have hsize : (w.servers q2).msg.length + env.aeskeyCipher.bytes.length ≤ msgSize := by
      rw [env.aeskeyCipher.length_eq]
      exact hroom
    have hin₁ := hshared.within hin (Nat.le_trans (Nat.le_add_right _ _) hsize)
    have hsize₁ : ((w.shared env q2).servers q2).msg.length + env.aeskeyCipher.bytes.length ≤
        msgSize := by
      rw [World.shared_self]
      exact hsize
    obtain ⟨w', hrun', hpoured⟩ := pours_onOut (writes_field env.aeskeyCipher) hin₁ hsize₁
    exact ⟨w', hrun.trans hrun', hshared.trans hpoured⟩

private theorem sendError_returns (c : Crypto) (q2 : Fin N) {error id : UInt8}
    {text : List UInt8} (hin : w.Within)
    (hctx : (w.servers q2).trusted = true → (w.servers q2).connection.eCtx ≠ none)
    (hroom : (w.servers q2).msg.length + (errorBytes id error text).length ≤
      (w.servers q2).limit) : ∃ w', (sendError c q2 error id text).run w = .ok () w' := by
  have hfits := Nat.le_trans hroom (Q2Server.limit_le _)
  obtain ⟨w₁, hrun, hpoured⟩ := pours_onOut (fills_error id error text).writes hin hfits
  obtain ⟨w', hrun'⟩ := sendBuffer_returns c (hpoured.within hin hfits q2) (hpoured.context hctx)
    (hpoured.limit hin hroom)
  exact ⟨w', (run_bind_of_ok hrun).trans hrun'⟩

private theorem signClientChallenge_length (env : HelloEnv) (challenge : Field 16)
    (h : (signClientChallenge env challenge).2 ≤ msgSize) :
    (signClientChallenge env challenge).2 ≤ (signClientChallenge env challenge).1.length := by
  unfold signClientChallenge at h ⊢
  cases hs : env.sign challenge with
  | noKey => exact Nat.le_refl _
  | failed =>
    rw [hs] at h
    exact absurd h (by decide)
  | signed cipher => exact Nat.le_refl _

private theorem pours_signature (env : HelloEnv) (challenge : Field 16) (hin : w.Within)
    (hroom : (w.servers q2).msg.length + (3 + (signClientChallenge env challenge).2) ≤ msgSize) :
    ∃ bs, bs.length = 3 + (signClientChallenge env challenge).2 ∧ Pours q2 bs (onOut q2 (do
      msgWriteByte scmdHelloAck
      msgWriteShort (signClientChallenge env challenge).2.toUInt16
      msgWriteData (signClientChallenge env challenge).1
        (signClientChallenge env challenge).2)) w := by
  have hcipher := signClientChallenge_length env challenge (by omega)
  have hlen : ([scmdHelloAck] ++ (shortBytes (signClientChallenge env challenge).2.toUInt16 ++
      (signClientChallenge env challenge).1.take (signClientChallenge env challenge).2)).length =
        3 + (signClientChallenge env challenge).2 := by
    simp only [List.length_append, List.length_take_of_le hcipher, shortBytes, List.length_cons,
      List.length_nil]
    omega
  refine ⟨_, hlen, pours_onOut (writes_bind (writes_byte _) (writes_bind (writes_short _)
    (writes_data _ _ hcipher))) hin ?_⟩
  rw [hlen]
  exact hroom

private theorem answerRest_error {env : HelloEnv} {e : Fault} (hin : w.Within)
    (hctx : (w.servers q2).trusted = true → (w.servers q2).connection.eCtx ≠ none)
    (hroom : (w.servers q2).msg.length +
      (if (w.servers q2).connection.encrypted then rsaLen else 0) + challengeLen ≤
        (w.servers q2).limit)
    (hrun : EStateM.run (do
      sendSessionKey env q2
      onOut q2 (msgWriteData env.challenge.bytes challengeLen)
      sendBuffer c q2
      pure true) w = .error e w') : e = .nullDeref := by
  have hfits := Nat.le_trans hroom (Q2Server.limit_le _)
  rcases sendSessionKey_cases env q2 hin (by omega) with ⟨v, herror⟩ | ⟨w₁, hrun₁, hpoured₁⟩
  · rw [run_bind_of_error herror] at hrun
    cases hrun
    rfl
  rw [run_bind_of_ok hrun₁] at hrun
  have hkey : (if (w.servers q2).connection.encrypted then env.aeskeyCipher.bytes
      else []).length = if (w.servers q2).connection.encrypted then rsaLen else 0 := by
    split
    · exact env.aeskeyCipher.length_eq
    · rfl
  have hgrown₁ := hpoured₁.length hin
  rw [hkey] at hgrown₁
  have hin₁ := hpoured₁.within hin (by rw [hkey]; omega)
  have hchallenge : env.challenge.bytes.length = challengeLen := env.challenge.length_eq
  have hlast : (w₁.servers q2).msg.length + env.challenge.bytes.length ≤ msgSize := by
    rw [hchallenge, hgrown₁]
    exact hfits
  obtain ⟨w₂, hrun₂, hpoured₂⟩ := pours_onOut (writes_field env.challenge) hin₁ hlast
  replace hrun := (run_bind_of_ok hrun₂).symm.trans hrun
  have hpoured := hpoured₁.trans hpoured₂
  obtain ⟨w₃, hrun₃⟩ := sendBuffer_returns c (hpoured₂.within hin₁ hlast q2)
    (hpoured.context hctx) (hpoured.limit hin (by
      rw [List.length_append, hkey, hchallenge, ← Nat.add_assoc]
      exact hroom))
  rw [run_bind_of_ok hrun₃] at hrun
  cases hrun

private theorem serverAuthResponse_error {env : HelloEnv} {challenge : Field 16} {e : Fault}
    (hin : w.Within)
    (hctx : (w.servers q2).trusted = true → (w.servers q2).connection.eCtx ≠ none)
    (hsign : (signClientChallenge env challenge).1.length ≤ rsaLen)
    (hroom : env.answers challenge = true → (w.servers q2).msg.length +
      (3 + (signClientChallenge env challenge).2 +
        (if (w.servers q2).connection.encrypted then rsaLen else 0) + challengeLen) ≤
          (w.servers q2).limit)
    (hrun : (serverAuthResponse c env q2 challenge).run w = .error e w') : e = .nullDeref := by
  have hassign : (modifyServer q2 (Q2Server.challenge env)).run w =
      .ok () (w.updateServer q2 (Q2Server.challenge env)) := rfl
  have hserver (v : World N) : (server q2).run v = .ok (v.servers q2) v := rfl
  have hself : (w.updateServer q2 (Q2Server.challenge env)).servers q2 =
      (w.servers q2).challenge env := World.updateServer_self _ _ _
  replace hrun := (run_bind_of_ok hassign).symm.trans hrun
  dsimp only at hrun
  rw [if_neg (by omega)] at hrun
  by_cases hlen : (signClientChallenge env challenge).2 = 0
  · rw [if_pos hlen, run_bind_of_ok (hserver _), run_bind_of_ok (release_run _ _ _ _)] at hrun
    cases hrun
  rw [if_neg hlen] at hrun
  have hroom₁ : ((w.updateServer q2 (Q2Server.challenge env)).servers q2).msg.length +
      (3 + (signClientChallenge env challenge).2 +
        (if ((w.updateServer q2 (Q2Server.challenge env)).servers q2).connection.encrypted
          then rsaLen else 0) + challengeLen) ≤
      ((w.updateServer q2 (Q2Server.challenge env)).servers q2).limit := by
    rw [hself]
    exact hroom (by simpa [HelloEnv.answers] using hlen)
  have hin₁ : (w.updateServer q2 (Q2Server.challenge env)).Within := hin.update (hin q2)
  have hctx₁ : ((w.updateServer q2 (Q2Server.challenge env)).servers q2).trusted = true →
      ((w.updateServer q2 (Q2Server.challenge env)).servers q2).connection.eCtx ≠ none := by
    rw [hself]
    exact hctx
  generalize w.updateServer q2 (Q2Server.challenge env) = v at hrun hroom₁ hin₁ hctx₁
  have hfits := Nat.le_trans hroom₁ (Q2Server.limit_le _)
  have hsigned : (v.servers q2).msg.length + (3 + (signClientChallenge env challenge).2) ≤
      msgSize := by omega
  obtain ⟨bs, hbs, w₂, hrun₂, hpoured⟩ := pours_signature env challenge hin₁ hsigned
  rw [run_bind_of_ok hrun₂] at hrun
  refine answerRest_error (hpoured.within hin₁ (by rw [hbs]; exact hsigned))
    (hpoured.context hctx₁) ?_ hrun
  rw [hpoured.encrypted, hpoured.limit_eq, hpoured.length hin₁, hbs]
  omega

private theorem bindServer_error {env : HelloEnv} {hello : Hello} {i : Nat} {e : Fault}
    (hrun : (bindServer env hello i q2).run w = .error e w') : e = .nullDeref := by
  have hload : (loadClientPublicKey env q2).run (w.claimed hello i q2) = .error e w' := hrun
  unfold loadClientPublicKey at hload
  split at hload
  · cases hload
    rfl
  · cases hload
  · cases hload
  · cases hload

private theorem refusal_returns (c : Crypto) (env : HelloEnv) (hin : w.Within)
    (hctx : (w.servers q2).trusted = true → (w.servers q2).connection.eCtx ≠ none)
    (hroom : (w.servers q2).msg.length + helloRefusal.length ≤ (w.servers q2).limit) :
    ∃ w', (sendError c q2 errEncryption 0xff (ascii "Problems encrypting sv_challenge")).run
      (w.unanswered env q2) = .ok () w' := by
  have hin₁ : (w.unanswered env q2).Within := hin.of_servers fun s ↦ by
    by_cases hs : s = q2
    · rw [hs, World.unanswered_self]
      rfl
    · rw [World.unanswered_of_ne _ _ hs]
  refine sendError_returns c q2 hin₁ ?_ ?_
  · rw [World.unanswered_self]
    exact hctx
  · rw [World.unanswered_self]
    exact hroom

/-- A HELLO whose reply fits overruns no buffer: it stops at a missing public key only. -/
theorem registerHello_error {env : HelloEnv} {hello : Hello} {i : Nat} {e : Fault} (h : w.Quiet)
    (hin : w.Within) (hkey : w.serverOfKey hello.key = some q2)
    (hsign : (signClientChallenge env hello.challenge).1.length ≤ rsaLen)
    (hroom : (w.servers q2).RoomFor env hello)
    (hrun : (registerHello c env i hello).run w = .error e w') : e = .nullDeref := by
  have hfind : (look fun w : World N ↦ w.serverOfKey hello.key).run w = .ok (some q2) w := by
    rw [← hkey]
    rfl
  replace hrun := (run_bind_of_ok hfind).symm.trans hrun
  dsimp only at hrun
  rcases run_bind_error hrun with hbind | ⟨_, w₁, hbind, hrun⟩
  · exact bindServer_error hbind
  obtain ⟨_, rfl⟩ := bindServer_ok hbind
  have hself : ((w.claimed hello i q2).keyed q2 env.keyFile).servers q2 =
      (w.servers q2).welcome env hello i (w.sockets i).fd w.nextHandle := by
    rw [World.keyed_self, World.claimed_self]
    rfl
  have hin₁ : ((w.claimed hello i q2).keyed q2 env.keyFile).Within := hin.of_servers fun s ↦ by
    by_cases hs : s = q2
    · rw [hs, hself]
      rfl
    · rw [World.keyed_of_ne _ _ hs, World.claimed_of_ne _ _ _ hs]
  have hctx₁ : (((w.claimed hello i q2).keyed q2 env.keyFile).servers q2).trusted = true →
      (((w.claimed hello i q2).keyed q2 env.keyFile).servers q2).connection.eCtx ≠ none := by
    rw [hself]
    exact (h q2).context
  have hroom₁ : (((w.claimed hello i q2).keyed q2 env.keyFile).servers q2).msg.length +
      env.replySize hello ≤
        (((w.claimed hello i q2).keyed q2 env.keyFile).servers q2).limit := by
    rw [hself]
    exact hroom
  have hencrypted : (((w.claimed hello i q2).keyed q2 env.keyFile).servers
      q2).connection.encrypted = decide (hello.encrypted ≠ 0) := by
    rw [hself]
    rfl
  unfold HelloEnv.replySize at hroom₁
  rcases run_bind_error hrun with hauth | ⟨b, w₂, hauth, hrun⟩
  · refine serverAuthResponse_error hin₁ hctx₁ hsign (fun ha ↦ ?_) hauth
    rw [if_pos ha] at hroom₁
    rw [hencrypted]
    simpa only [decide_eq_true_eq] using hroom₁
  · obtain ⟨hb, hw₂⟩ := serverAuthResponse_ok hauth
    cases b with
    | true => cases hrun
    | false =>
      rw [if_neg Bool.false_ne_true] at hw₂
      rw [← hb, if_neg Bool.false_ne_true] at hroom₁
      subst hw₂
      obtain ⟨w₃, hsend⟩ := refusal_returns c env hin₁ hctx₁ hroom₁
      replace hrun := (run_bind_of_ok hsend).symm.trans hrun
      cases hrun

end Q2Admin
