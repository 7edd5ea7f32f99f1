import Q2Admin.Session.Welcome

/-!
# When a HELLO is dealt with

Library `Q2Admin.Session`. Source `server.c:210–273` and `server.c:508–544`. The converse of what
`registerHello_error` says, and more: `registerHello_returns_iff` is the exact condition under which
a HELLO for a registered server is answered or refused, and the program goes on.
-/

namespace Q2Admin

open Exec

variable {N : Nat} {c : Crypto} {q2 : Fin N} {bs : List UInt8} {w : World N}

private theorem onOut_returns_iff {α : Type} {x : BufM Unit} {e : List UInt8} {f : Unit → M N α}
    (hx : Fills x e) (hbs : (w.servers q2).msg = .ofBytes bs) (hlen : bs.length ≤ msgSize) :
    Returns (onOut q2 x >>= f) w ↔ bs.length + e.length ≤ msgSize ∧
      Returns (f ()) (w.holding q2 (.ofBytes (bs ++ e))) := by
  by_cases hfits : bs.length + e.length ≤ msgSize
  · rw [returns_bind_of_ok (onOut_run hx.writes hbs hfits)]
    exact ⟨fun h ↦ ⟨hfits, h⟩, fun h ↦ h.2⟩
  · obtain ⟨m, hfault⟩ := hx.overfills bs hlen (Nat.lt_of_not_le hfits)
    have hrun : (onOut q2 x).run w = .error .overwrite (w.holding q2 m) := by
      have hget : (outMsg q2).get w = .ofBytes bs := hbs
      unfold onOut
      rw [run_zoom, hget, hfault]
      rfl
    exact ⟨fun h ↦ absurd h.of_bind (not_returns hrun), fun h ↦ absurd h.1 hfits⟩

private theorem sendSessionKey_returns_iff {α : Type} {env : HelloEnv} {f : Unit → M N α}
    (hbs : (w.servers q2).msg = .ofBytes bs) (hlen : bs.length ≤ msgSize) {key : List UInt8}
    (hkey : key = if (w.servers q2).connection.encrypted then env.aeskeyCipher.bytes else []) :
    Returns (sendSessionKey env q2 >>= f) w ↔
      ((w.servers q2).connection.encrypted = true → (w.servers q2).publickey ≠ none) ∧
        bs.length + key.length ≤ msgSize ∧
          Returns (f ()) ((w.shared env q2).holding q2 (.ofBytes (bs ++ key))) := by
  cases he : (w.servers q2).connection.encrypted with
  | false =>
    obtain ⟨hrun, hshared⟩ := sendSessionKey_plain env he
    have hnone : key = [] := by rw [hkey, he]; rfl
    have hsame : w.holding q2 (.ofBytes bs) = w := w.updateServer_eq_self (by rw [← hbs]; rfl)
    rw [returns_bind_of_ok hrun, hshared, hnone, List.append_nil, hsame]
    exact ⟨fun h ↦ ⟨fun h ↦ Bool.noConfusion h, hlen, h⟩, fun h ↦ h.2.2⟩
  | true =>
    have hsome : key = env.aeskeyCipher.bytes := by rw [hkey, he]; rfl
    cases hk : (w.servers q2).publickey with
    | none =>
      have hserver : (server q2).run w = .ok (w.servers q2) w := rfl
      have hrun : ∃ w', (sendSessionKey env q2).run w = .error .nullDeref w' := by
        unfold sendSessionKey
        rw [run_bind_of_ok hserver, he, hk]
        exact ⟨_, rfl⟩
      obtain ⟨w', hrun⟩ := hrun
      exact ⟨fun h ↦ absurd h.of_bind (not_returns hrun), fun h ↦ absurd rfl (h.1 rfl)⟩
    | some k =>
      rcases sendSessionKey_run env he with ⟨_, hnone, _⟩ | hrun
      · rw [hk] at hnone
        cases hnone
      have hshared : ((w.shared env q2).servers q2).msg = .ofBytes bs := by
        rw [World.shared_self]
        exact hbs
      have hboth : (sendSessionKey env q2 >>= f).run w =
          (onOut q2 (msgWriteData env.aeskeyCipher.bytes rsaLen) >>= f).run (w.shared env q2) := by
        rw [EStateM.run_bind, EStateM.run_bind, hrun]
      have hfills : Fills (msgWriteData env.aeskeyCipher.bytes rsaLen) env.aeskeyCipher.bytes :=
        fills_field env.aeskeyCipher
      rw [returns_congr hboth, onOut_returns_iff hfills hshared hlen, hsome]
      exact ⟨fun h ↦ ⟨fun _ ↦ Option.some_ne_none k, h⟩, fun h ↦ h.2⟩

private theorem sendBuffer_returns_iff (c : Crypto) (hbs : (w.servers q2).msg = .ofBytes bs)
    (hlen : bs.length ≤ msgSize) (hpos : 0 < bs.length) (hc : (w.servers q2).connected = true)
    (hctx : (w.servers q2).trusted = true → (w.servers q2).connection.eCtx ≠ none) :
    Returns (sendBuffer c q2) w ↔ bs.length ≤ (w.servers q2).limit := by
  have hl : (w.servers q2).msg.length ≠ 0 := by
    rw [hbs]
    exact Nat.pos_iff_ne_zero.mp hpos
  have hcontents : (w.servers q2).msg.contents = bs := by
    rw [hbs]
    exact MsgBuffer.contents_ofBytes bs
  unfold Q2Server.limit
  cases hs : (w.servers q2).secure with
  | false =>
    have hplain {p : Prop} (h : (w.servers q2).secure = true) : p := by
      rw [hs] at h
      cases h
    exact ⟨fun _ ↦ hlen, fun _ ↦ .of_ok (sendBuffer_posted c hc hl hplain hplain)⟩
  | true =>
    have hctx' := hctx (Bool.and_eq_true_iff.mp hs).2
    rw [if_pos rfl]
    by_cases hfits : bs.length ≤ sealedSize
    · refine ⟨fun _ ↦ hfits, fun _ ↦ .of_ok (sendBuffer_posted c hc hl (fun _ ↦ hctx') fun _ ↦ ?_)⟩
      rw [hcontents]
      exact sealed_fits.mpr hfits
    · refine ⟨fun h ↦ absurd h (sendBuffer_overrun c hc hl hs hctx' ?_), fun h ↦ absurd h hfits⟩
      rw [hcontents]
      exact Nat.lt_of_not_le fun h ↦ hfits (sealed_fits.mp h)

private theorem post_returns_iff (c : Crypto) {x : BufM Unit} {e : List UInt8} (hx : Fills x e)
    (he : 0 < e.length) (hbs : (w.servers q2).msg = .ofBytes bs) (hlen : bs.length ≤ msgSize)
    (hc : (w.servers q2).connected = true)
    (hctx : (w.servers q2).trusted = true → (w.servers q2).connection.eCtx ≠ none) :
    Returns (do onOut q2 x; sendBuffer c q2) w ↔
      bs.length + e.length ≤ (w.servers q2).limit := by
  have hlimit := Q2Server.limit_le (w.servers q2)
  have hself : (w.holding q2 (.ofBytes (bs ++ e))).servers q2 =
      (w.servers q2).hold (.ofBytes (bs ++ e)) := World.holding_self _ _ _
  have hsend (hroom : (bs ++ e).length ≤ msgSize) :
      Returns (sendBuffer c q2) (w.holding q2 (.ofBytes (bs ++ e))) ↔
        (bs ++ e).length ≤ (w.servers q2).limit := by
    have hbs' : ((w.holding q2 (.ofBytes (bs ++ e))).servers q2).msg = .ofBytes (bs ++ e) := by
      rw [hself]
      rfl
    have hiff := sendBuffer_returns_iff c hbs' hroom
      (by rw [List.length_append]; omega) (by rw [hself]; exact hc) (by rw [hself]; exact hctx)
    rw [hself] at hiff
    exact hiff
  rw [List.length_append] at hsend
  rw [onOut_returns_iff hx hbs hlen]
  exact ⟨fun h ↦ (hsend h.1).mp h.2, fun h ↦ ⟨by omega, (hsend (by omega)).mpr h⟩⟩

private theorem signature_cases (env : HelloEnv) (challenge : Field 16) :
    (signClientChallenge env challenge).2 ≤ (signClientChallenge env challenge).1.length ∨
      (signClientChallenge env challenge).1.length < (signClientChallenge env challenge).2 ∧
        msgSize < (signClientChallenge env challenge).2 := by
  unfold signClientChallenge
  cases env.sign challenge with
  | noKey => exact .inl (Nat.le_refl _)
  | failed => exact .inr ⟨by decide, by decide⟩
  | signed cipher => exact .inl (Nat.le_refl _)

private theorem key_size (env : HelloEnv) (encrypted : Bool) :
    (if encrypted then env.aeskeyCipher.bytes else []).length =
      if encrypted then rsaLen else 0 := by
  split
  · exact env.aeskeyCipher.length_eq
  · rfl

private theorem answerRest_returns_iff (c : Crypto) (env : HelloEnv)
    (hbs : (w.servers q2).msg = .ofBytes bs) (hlen : bs.length ≤ msgSize)
    (hc : (w.servers q2).connected = true)
    (hctx : (w.servers q2).trusted = true → (w.servers q2).connection.eCtx ≠ none) :
    Returns (do
      sendSessionKey env q2
      onOut q2 (msgWriteData env.challenge.bytes challengeLen)
      sendBuffer c q2
      pure true) w ↔
      ((w.servers q2).connection.encrypted = true → (w.servers q2).publickey ≠ none) ∧
        bs.length + (if (w.servers q2).connection.encrypted then rsaLen else 0) + challengeLen ≤
          (w.servers q2).limit := by
  obtain ⟨key, hkey⟩ : ∃ key, key =
      if (w.servers q2).connection.encrypted then env.aeskeyCipher.bytes else [] := ⟨_, rfl⟩
  have hkeysize : key.length = if (w.servers q2).connection.encrypted then rsaLen else 0 := by
    rw [hkey]
    exact key_size env _
  have hchallenge : Fills (msgWriteData env.challenge.bytes challengeLen) env.challenge.bytes :=
    fills_field env.challenge
  have hlast : env.challenge.bytes.length = challengeLen := env.challenge.length_eq
  have hlimit := Q2Server.limit_le (w.servers q2)
  -- The state behind the session key.
  obtain ⟨v, hv⟩ : ∃ v, v = (w.shared env q2).holding q2 (.ofBytes (bs ++ key)) := ⟨_, rfl⟩
  have hself : v.servers q2 = ((w.servers q2).share env).hold (.ofBytes (bs ++ key)) := by
    rw [hv, World.holding_self, World.shared_self]
  have hpost (hroom : (bs ++ key).length ≤ msgSize) :
      Returns (do
        onOut q2 (msgWriteData env.challenge.bytes challengeLen)
        sendBuffer c q2
        pure true) v ↔ (bs ++ key).length + challengeLen ≤ (w.servers q2).limit := by
    have hmsg : (v.servers q2).msg = .ofBytes (bs ++ key) := by
      rw [hself]
      rfl
    have hiff := post_returns_iff c hchallenge (by rw [hlast]; decide) hmsg hroom
      (by rw [hself]; exact hc) (by rw [hself]; exact hctx)
    have hend : (do
        onOut q2 (msgWriteData env.challenge.bytes challengeLen)
        sendBuffer c q2
        pure true : M N Bool) = (do
          onOut q2 (msgWriteData env.challenge.bytes challengeLen)
          sendBuffer c q2) >>= fun _ ↦ pure true := by
      rw [bind_assoc]
    rw [hend, returns_bind_pure, hiff, hlast, hself]
    exact Iff.rfl
  rw [sendSessionKey_returns_iff hbs hlen hkey, ← hv, ← hkeysize]
  rw [List.length_append] at hpost
  refine and_congr_right fun _ ↦ ⟨fun h ↦ (hpost h.1).mp h.2, fun h ↦ ⟨by omega, ?_⟩⟩
  exact (hpost (by omega)).mpr h

private theorem answer_returns_iff (c : Crypto) (env : HelloEnv) {cipher : List UInt8}
    {len : Nat} (hbs : (w.servers q2).msg = .ofBytes bs) (hlen : bs.length ≤ msgSize)
    (hc : (w.servers q2).connected = true)
    (hctx : (w.servers q2).trusted = true → (w.servers q2).connection.eCtx ≠ none)
    (hfit : len ≤ cipher.length) :
    Returns (do
      onOut q2 do
        msgWriteByte scmdHelloAck
        msgWriteShort len.toUInt16
        msgWriteData cipher len
      sendSessionKey env q2
      onOut q2 (msgWriteData env.challenge.bytes challengeLen)
      sendBuffer c q2
      pure true) w ↔
      ((w.servers q2).connection.encrypted = true → (w.servers q2).publickey ≠ none) ∧
        bs.length + (3 + len + (if (w.servers q2).connection.encrypted then rsaLen else 0) +
          challengeLen) ≤ (w.servers q2).limit := by
  have hsigned : Fills (do
      msgWriteByte scmdHelloAck
      msgWriteShort len.toUInt16
      msgWriteData cipher len)
      ([scmdHelloAck] ++ (shortBytes len.toUInt16 ++ cipher.take len)) :=
    fills_bind (fills_byte _) (fills_bind (fills_short _) (fills_data cipher len hfit))
  have hsize : ([scmdHelloAck] ++ (shortBytes len.toUInt16 ++ cipher.take len)).length =
      3 + len := by
    simp only [List.length_append, List.length_take_of_le hfit, shortBytes, List.length_cons,
      List.length_nil]
    omega
  have hlimit := Q2Server.limit_le (w.servers q2)
  generalize [scmdHelloAck] ++ (shortBytes len.toUInt16 ++ cipher.take len) = signed
    at hsigned hsize
  have hself : (w.holding q2 (.ofBytes (bs ++ signed))).servers q2 =
      (w.servers q2).hold (.ofBytes (bs ++ signed)) := World.holding_self _ _ _
  have hmsg : ((w.holding q2 (.ofBytes (bs ++ signed))).servers q2).msg =
      .ofBytes (bs ++ signed) := by
    rw [hself]
    rfl
  have hrest (hroom : (bs ++ signed).length ≤ msgSize) :
      Returns (do
        sendSessionKey env q2
        onOut q2 (msgWriteData env.challenge.bytes challengeLen)
        sendBuffer c q2
        pure true) (w.holding q2 (.ofBytes (bs ++ signed))) ↔
        ((w.servers q2).connection.encrypted = true → (w.servers q2).publickey ≠ none) ∧
          (bs ++ signed).length + (if (w.servers q2).connection.encrypted then rsaLen else 0) +
            challengeLen ≤ (w.servers q2).limit := by
    have hiff := answerRest_returns_iff c env hmsg hroom
      (by rw [hself]; exact hc) (by rw [hself]; exact hctx)
    rw [hself] at hiff
    exact hiff
  rw [List.length_append, hsize] at hrest
  rw [onOut_returns_iff hsigned hbs hlen, hsize]
  constructor
  · rintro ⟨hroom, h⟩
    obtain ⟨hpk, hfits⟩ := (hrest hroom).mp h
    exact ⟨hpk, by omega⟩
  · rintro ⟨hpk, hfits⟩
    exact ⟨by omega, (hrest (by omega)).mpr ⟨hpk, by omega⟩⟩

private theorem serverAuthResponse_returns_iff (c : Crypto) (env : HelloEnv)
    (challenge : Field 16) (hbs : (w.servers q2).msg = .ofBytes bs) (hlen : bs.length ≤ msgSize)
    (hc : (w.servers q2).connected = true)
    (hctx : (w.servers q2).trusted = true → (w.servers q2).connection.eCtx ≠ none) :
    Returns (serverAuthResponse c env q2 challenge) w ↔
      (signClientChallenge env challenge).1.length ≤ rsaLen ∧ (env.answers challenge = true →
        ((w.servers q2).connection.encrypted = true → (w.servers q2).publickey ≠ none) ∧
        bs.length + (3 + (signClientChallenge env challenge).2 +
          (if (w.servers q2).connection.encrypted then rsaLen else 0) + challengeLen) ≤
            (w.servers q2).limit) := by
  have hassign : (modifyServer q2 (Q2Server.challenge env)).run w =
      .ok () (w.updateServer q2 (Q2Server.challenge env)) := rfl
  have hself : (w.updateServer q2 (Q2Server.challenge env)).servers q2 =
      (w.servers q2).challenge env := World.updateServer_self _ _ _
  have hlimit := Q2Server.limit_le (w.servers q2)
  have hcases := signature_cases env challenge
  unfold HelloEnv.answers
  refine (returns_bind_of_ok hassign).trans ?_
  generalize signClientChallenge env challenge = signature at hcases ⊢
  rcases signature with ⟨cipher, len⟩
  dsimp only at hcases ⊢
  by_cases hlong : rsaLen < cipher.length
  · rw [if_pos hlong]
    exact ⟨fun h ↦ absurd h (not_returns rfl), fun h ↦ absurd h.1 (Nat.not_le_of_lt hlong)⟩
  rw [if_neg hlong]
  have hcipher := Nat.le_of_not_lt hlong
  by_cases hzero : len = 0
  · have hserver (v : World N) : (server q2).run v = .ok (v.servers q2) v := rfl
    rw [if_pos hzero, returns_bind_of_ok (hserver _), returns_bind_of_ok (release_run _ _ _ _)]
    exact ⟨fun _ ↦ ⟨hcipher, fun h ↦ absurd hzero (of_decide_eq_true h)⟩, fun _ ↦ ⟨_, _, rfl⟩⟩
  rw [if_neg hzero]
  have hanswers : decide (len ≠ 0) = true := decide_eq_true hzero
  rcases hcases with hfit | ⟨hshort, hhuge⟩
  · have hmsg : ((w.updateServer q2 (Q2Server.challenge env)).servers q2).msg = .ofBytes bs := by
      rw [hself]
      exact hbs
    have hiff := answer_returns_iff c env hmsg hlen (by rw [hself]; exact hc)
      (by rw [hself]; exact hctx) hfit
    rw [hself] at hiff
    exact hiff.trans ⟨fun h ↦ ⟨hcipher, fun _ ↦ h⟩, fun h ↦ h.2 hanswers⟩
  · -- The largest `size_t` is the length of a signature that has failed.
    constructor
    · intro h
      obtain ⟨_, m₁, h₁⟩ := h.of_bind.of_zoom.of_bind_right
      obtain ⟨_, m₂, h₂⟩ := h₁.of_bind_right
      exact absurd h₂ (not_returns_data hshort m₂)
    · rintro ⟨_, h⟩
      have hfits := (h hanswers).2
      omega

private theorem bindServer_returns_iff {α : Type} {env : HelloEnv} {hello : Hello} {i : Nat}
    {f : Unit → M N α} : Returns (bindServer env hello i q2 >>= f) w ↔
      env.keyFile ≠ .missing ∧ Returns (f ()) ((w.claimed hello i q2).keyed q2 env.keyFile) := by
  constructor
  · intro h
    obtain ⟨_, w₁, hrun⟩ := h.of_bind
    obtain ⟨hfile, rfl⟩ := bindServer_ok hrun
    exact ⟨hfile, (returns_bind_of_ok hrun).mp h⟩
  · rintro ⟨hfile, h⟩
    have hrun : ∃ w₁, (bindServer env hello i q2).run w = .ok () w₁ := by
      have hload : (bindServer env hello i q2).run w =
          (loadClientPublicKey env q2).run (w.claimed hello i q2) := rfl
      rw [hload]
      unfold loadClientPublicKey
      split
      · contradiction
      · exact ⟨_, rfl⟩
      · exact ⟨_, rfl⟩
      · exact ⟨_, rfl⟩
    obtain ⟨w₁, hrun⟩ := hrun
    rw [returns_bind_of_ok hrun, (bindServer_ok hrun).2]
    exact h

/-- What a HELLO for a server relies on: the file of its public key can be opened, the signature
fits `cipher`, there is a key for the session key, and the reply fits behind what waits. -/
structure HelloEnv.Bearable (env : HelloEnv) (h : Hello) (s : Q2Server) : Prop where
  file : env.keyFile ≠ .missing
  signature : (signClientChallenge env h.challenge).1.length ≤ rsaLen
  key : env.answers h.challenge = true → h.encrypted ≠ 0 → env.keyFile.key ≠ none
  room : s.RoomFor env h

private theorem refusal_returns_iff (c : Crypto) (env : HelloEnv)
    (hbs : (w.servers q2).msg = .ofBytes bs) (hlen : bs.length ≤ msgSize)
    (hc : (w.servers q2).connected = true)
    (hctx : (w.servers q2).trusted = true → (w.servers q2).connection.eCtx ≠ none) :
    Returns (sendError c q2 errEncryption 0xff (ascii "Problems encrypting sv_challenge"))
      (w.unanswered env q2) ↔
      bs.length + helloRefusal.length ≤ (w.servers q2).limit := by
  have hself := World.unanswered_self w env q2
  have hmsg : ((w.unanswered env q2).servers q2).msg = .ofBytes bs := by
    rw [hself]
    exact hbs
  have hiff := post_returns_iff c (fills_error 0xff errEncryption
    (ascii "Problems encrypting sv_challenge")) (Nat.succ_pos _) hmsg hlen
    (by rw [hself]; exact hc) (by rw [hself]; exact hctx)
  rw [hself] at hiff
  exact hiff

private theorem greet_returns_iff (c : Crypto) (env : HelloEnv) (challenge : Field 16)
    (hbs : (w.servers q2).msg = .ofBytes bs) (hlen : bs.length ≤ msgSize)
    (hc : (w.servers q2).connected = true)
    (hctx : (w.servers q2).trusted = true → (w.servers q2).connection.eCtx ≠ none) :
    Returns (do
      let answered ← serverAuthResponse c env q2 challenge
      if answered then pure (some q2)
      else
        sendError c q2 errEncryption 0xff (ascii "Problems encrypting sv_challenge")
        pure none) w ↔
      (signClientChallenge env challenge).1.length ≤ rsaLen ∧
        (env.answers challenge = true → (w.servers q2).connection.encrypted = true →
          (w.servers q2).publickey ≠ none) ∧
        bs.length + (if env.answers challenge then
          3 + (signClientChallenge env challenge).2 +
            (if (w.servers q2).connection.encrypted then rsaLen else 0) + challengeLen
          else helloRefusal.length) ≤ (w.servers q2).limit := by
  have hauth := serverAuthResponse_returns_iff c env challenge hbs hlen hc hctx
  cases ha : env.answers challenge with
  | true =>
    rw [ha] at hauth
    refine (returns_bind_iff fun b v hrun ↦ ?_).trans ?_
    · rw [(serverAuthResponse_ok hrun).1, ha]
      exact ⟨_, v, rfl⟩
    · rw [hauth, if_pos rfl]
      exact and_congr_right fun _ ↦
        ⟨fun h ↦ ⟨fun _ ↦ (h rfl).1, (h rfl).2⟩, fun h _ ↦ ⟨h.1 rfl, h.2⟩⟩
  | false =>
    rw [ha] at hauth
    have hrefusal := refusal_returns_iff c env hbs hlen hc hctx
    have hstate {b : Bool} {v : World N} (hrun : (serverAuthResponse c env q2 challenge).run w =
        .ok b v) : b = false ∧ v = w.unanswered env q2 := by
      obtain ⟨hb, hv⟩ := serverAuthResponse_ok hrun
      rw [ha] at hb
      rw [hb, if_neg Bool.false_ne_true] at hv
      exact ⟨hb, hv⟩
    rw [if_neg Bool.false_ne_true, ← hrefusal]
    constructor
    · intro h
      obtain ⟨b, v, hrun⟩ := h.of_bind
      obtain ⟨rfl, rfl⟩ := hstate hrun
      exact ⟨(hauth.mp (.of_ok hrun)).1, fun h ↦ Bool.noConfusion h,
        ((returns_bind_of_ok hrun).mp h).of_bind⟩
    · rintro ⟨hsign, _, h⟩
      obtain ⟨b, v, hrun⟩ := hauth.mpr ⟨hsign, fun h ↦ Bool.noConfusion h⟩
      obtain ⟨rfl, rfl⟩ := hstate hrun
      exact (returns_bind_of_ok hrun).mpr (returns_bind_pure.mpr h)

/-- A HELLO for a registered server is answered or refused, and the program goes on, exactly if what
it relies on is there. -/
theorem registerHello_returns_iff {env : HelloEnv} {hello : Hello} {i : Nat} (h : w.Quiet)
    (hin : w.Within) (hkey : w.serverOfKey hello.key = some q2) :
    Returns (registerHello c env i hello) w ↔ env.Bearable hello (w.servers q2) := by
  have hfind : (look fun w : World N ↦ w.serverOfKey hello.key).run w = .ok (some q2) w := by
    rw [← hkey]
    rfl
  refine (returns_bind_of_ok hfind).trans (bindServer_returns_iff.trans ?_)
  obtain ⟨v, hv⟩ : ∃ v, v = (w.claimed hello i q2).keyed q2 env.keyFile := ⟨_, rfl⟩
  have hself : v.servers q2 =
      (w.servers q2).welcome env hello i (w.sockets i).fd w.nextHandle := by
    rw [hv, World.keyed_self, World.claimed_self]
    rfl
  rw [← hv]
  obtain ⟨bs, hbs, hlen⟩ := hin q2
  have hmsg : (v.servers q2).msg = .ofBytes bs := by
    rw [hself]
    exact hbs
  have hgreet := greet_returns_iff c env hello.challenge hmsg hlen (by rw [hself]; rfl)
    (by rw [hself]; exact (h q2).context)
  have hpk : (v.servers q2).publickey ≠ none ↔ env.keyFile.key ≠ none := by
    rw [hself]
    exact Option.map_eq_none_iff.not
  have hencrypted : (v.servers q2).connection.encrypted = decide (hello.encrypted ≠ 0) := by
    rw [hself]
    rfl
  have hroom : (w.servers q2).RoomFor env hello ↔
      bs.length + env.replySize hello ≤ (v.servers q2).limit := by
    unfold Q2Server.RoomFor
    rw [hbs, hself]
    exact Iff.rfl
  unfold HelloEnv.replySize at hroom
  rw [hencrypted, hpk] at hgreet
  simp only [decide_eq_true_eq] at hgreet
  refine (and_congr_right fun _ ↦ hgreet).trans ?_
  rw [← hroom]
  exact ⟨fun h ↦ ⟨h.1, h.2.1, h.2.2.1, h.2.2.2⟩, fun h ↦ ⟨h.file, h.signature, h.key, h.room⟩⟩

end Q2Admin
