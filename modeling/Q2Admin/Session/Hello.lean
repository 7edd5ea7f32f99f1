import Q2Admin.Session.Sends

/-!
# What a HELLO leaves

Library `Q2Admin.Session`. Exact results of the functions that bind a socket to a server and
answer its HELLO. Whether it is answered or refused, a HELLO that returns has written its record
and sent one message: `registerHello_ok`.
-/

namespace Q2Admin

open Exec

variable {N : Nat}

/-- The key that a public key file provides. -/
def KeyFile.key : KeyFile → Option (List UInt8)
  | .holds key => some key
  | _ => none

/-- Reading the file allocates an `RSA` object. -/
def KeyFile.creates : KeyFile → Bool
  | .unreadable | .holds _ => true
  | _ => false

/-- The events of reading the file. -/
def KeyFile.creating (q2 : Fin N) (n : Nat) (f : KeyFile) : List Event :=
  if f.creates then [.created q2 .key n] else []

/-- A record with the key of the file in the object with handle `n`. -/
def Q2Server.keyed (n : Nat) (f : KeyFile) (s : Q2Server) : Q2Server :=
  { s with publickey := f.key.map (RsaKey.mk n) }

/-- The state after the public key of a server has been read. -/
def World.keyed (w : World N) (q2 : Fin N) (f : KeyFile) : World N :=
  { w.updateServer q2 (Q2Server.keyed w.nextHandle f) with
    nextHandle := if f.creates then w.nextHandle + 1 else w.nextHandle
    trace := f.creating q2 w.nextHandle ++ w.trace }

/-- The server's key is what its file has brought. -/
@[simp] theorem World.keyed_self (w : World N) (q2 : Fin N) (f : KeyFile) :
    (w.keyed q2 f).servers q2 = (w.servers q2).keyed w.nextHandle f :=
  w.updateServer_self q2 _

/-- Other servers keep their keys. -/
@[simp] theorem World.keyed_of_ne (w : World N) {q2 s : Fin N} (f : KeyFile) (h : s ≠ q2) :
    (w.keyed q2 f).servers s = w.servers s :=
  w.updateServer_of_ne _ h

private theorem loadClientPublicKey_ok {env : HelloEnv} {q2 : Fin N} {w w' : World N}
    (h : (loadClientPublicKey env q2).run w = .ok () w') :
    env.keyFile ≠ .missing ∧ w' = w.keyed q2 env.keyFile := by
  unfold loadClientPublicKey at h
  split at h
  · cases h
  · next hk =>
    rw [hk, modifyServer_ok h]
    exact ⟨KeyFile.noConfusion, rfl⟩
  · next hk =>
    rw [run_bind_of_ok (createHandle_run q2 .key w)] at h
    rw [hk, modifyServer_ok h]
    exact ⟨KeyFile.noConfusion, rfl⟩
  · next key hk =>
    rw [run_bind_of_ok (createHandle_run q2 .key w)] at h
    rw [hk, modifyServer_ok h]
    exact ⟨KeyFile.noConfusion, rfl⟩

/-- A record that a HELLO binds to the socket `fd` in slot `i`. -/
def Q2Server.claim (h : Hello) (i fd : Nat) (s : Q2Server) : Q2Server :=
  { s with
    index := i
    socket := fd
    connected := true
    port := h.port
    maxclients := h.maxClients
    connection := { s.connection with encrypted := h.encrypted ≠ 0 } }

/-- The state after the socket in slot `i` has been bound to a server. -/
def World.claimed (w : World N) (h : Hello) (i : Nat) (q2 : Fin N) : World N :=
  { w.updateServer q2 (Q2Server.claim h i (w.sockets i).fd) with
    trace := .bound q2 (w.sockets i).fd :: w.trace }

/-- The server has the slot and the socket on which its HELLO came. -/
@[simp] theorem World.claimed_self (w : World N) (h : Hello) (i : Nat) (q2 : Fin N) :
    (w.claimed h i q2).servers q2 = (w.servers q2).claim h i (w.sockets i).fd :=
  w.updateServer_self q2 _

/-- Other servers keep their slots. -/
@[simp] theorem World.claimed_of_ne (w : World N) (h : Hello) (i : Nat) {q2 s : Fin N}
    (hs : s ≠ q2) : (w.claimed h i q2).servers s = w.servers s :=
  w.updateServer_of_ne _ hs

/-- A HELLO binds its server if the file of the public key is there. -/
theorem bindServer_ok {env : HelloEnv} {h : Hello} {i : Nat} {q2 : Fin N} {w w' : World N}
    (hr : (bindServer env h i q2).run w = .ok () w') :
    env.keyFile ≠ .missing ∧ w' = (w.claimed h i q2).keyed q2 env.keyFile := by
  obtain ⟨p, w₁, h₁, hr⟩ := run_bind_ok hr
  obtain ⟨rfl, rfl⟩ := look_ok h₁
  exact loadClientPublicKey_ok hr

/-- The HELLO with this challenge is answered. -/
def HelloEnv.answers (env : HelloEnv) (challenge : Field 16) : Bool :=
  (signClientChallenge env challenge).2 ≠ 0

/-- A record that keeps the challenge it has been sent. -/
def Q2Server.challenge (env : HelloEnv) (s : Q2Server) : Q2Server :=
  { s with connection := { s.connection with clChallenge := strncpy 16 env.challenge.bytes } }

/-- A record with the session key that the server asked for, if it did. -/
def Q2Server.share (env : HelloEnv) (s : Q2Server) : Q2Server :=
  { s with
    connection :=
      { s.connection with
        aeskey := if s.connection.encrypted then env.aeskey else s.connection.aeskey
        iv := if s.connection.encrypted then env.iv else s.connection.iv
        aeskeyCipher :=
          if s.connection.encrypted then env.aeskeyCipher else s.connection.aeskeyCipher } }

/-- The use of the public key for a session key. -/
def Q2Server.sharing (q2 : Fin N) (s : Q2Server) : List Event :=
  if s.connection.encrypted then (s.publickey.map fun k ↦ .used q2 .key k.handle).toList else []

/-- The state after the session key of a server has been made, if it asked for one. -/
def World.shared (w : World N) (env : HelloEnv) (q2 : Fin N) : World N :=
  { w.updateServer q2 (Q2Server.share env) with trace := (w.servers q2).sharing q2 ++ w.trace }

/-- The server has the new session key. -/
theorem World.shared_self (w : World N) (env : HelloEnv) (q2 : Fin N) :
    (w.shared env q2).servers q2 = (w.servers q2).share env := World.updateServer_self _ _ _

/-- Other servers keep their session keys. -/
theorem World.shared_of_ne (w : World N) (env : HelloEnv) {q2 s : Fin N} (h : s ≠ q2) :
    (w.shared env q2).servers s = w.servers s := w.updateServer_of_ne _ h

/-- A server that did not ask for a session key is not sent one. -/
theorem sendSessionKey_plain (env : HelloEnv) {q2 : Fin N} {w : World N}
    (he : (w.servers q2).connection.encrypted = false) :
    (sendSessionKey env q2).run w = .ok () w ∧ w.shared env q2 = w := by
  have hserver : (server q2).run w = .ok (w.servers q2) w := rfl
  have hshare : w.updateServer q2 (Q2Server.share env) = w := by
    apply World.updateServer_eq_self
    unfold Q2Server.share
    rw [if_neg (by simp [he]), if_neg (by simp [he]), if_neg (by simp [he])]
  constructor
  · unfold sendSessionKey
    rw [run_bind_of_ok hserver, he]
    rfl
  · unfold World.shared Q2Server.sharing
    rw [hshare, if_neg (by simp [he])]
    rfl

/-- A session key is enciphered with the public key, which must be there. -/
theorem sendSessionKey_run (env : HelloEnv) {q2 : Fin N} {w : World N}
    (he : (w.servers q2).connection.encrypted = true) :
    (∃ w', (w.servers q2).publickey = none ∧
        (sendSessionKey env q2).run w = .error .nullDeref w') ∨
      (sendSessionKey env q2).run w =
        (onOut q2 (msgWriteData env.aeskeyCipher.bytes rsaLen)).run (w.shared env q2) := by
  have hserver : (server q2).run w = .ok (w.servers q2) w := rfl
  unfold sendSessionKey
  rw [run_bind_of_ok hserver, he]
  cases hk : (w.servers q2).publickey with
  | none => exact .inl ⟨_, rfl, rfl⟩
  | some k =>
    right
    have hshared : w.shared env q2 = (({ (w.updateServer q2 fun s ↦
        { s with connection := { s.connection with aeskey := env.aeskey, iv := env.iv } }) with
          trace := .used q2 .key k.handle :: w.trace } : World N).updateServer q2 fun s ↦
        { s with connection := { s.connection with aeskeyCipher := env.aeskeyCipher } }) := by
      simp only [World.shared, Q2Server.sharing, World.updateServer, Function.update_self,
        Function.update_idem, Q2Server.share, he, hk]
      rfl
    rw [hshared]
    rfl

private theorem sendSessionKey_ok {env : HelloEnv} {q2 : Fin N} {w w' : World N}
    (h : (sendSessionKey env q2).run w = .ok () w') :
    ∃ m, Written (w.servers q2).msg
        (if (w.servers q2).connection.encrypted then env.aeskeyCipher.bytes else []) m ∧
      w' = (w.shared env q2).holding q2 m := by
  cases he : (w.servers q2).connection.encrypted with
  | false =>
    obtain ⟨hrun, hshared⟩ := sendSessionKey_plain env he
    rw [hrun] at h
    cases h
    rw [hshared]
    exact ⟨_, .refl _, (w.updateServer_eq_self rfl).symm⟩
  | true =>
    rcases sendSessionKey_run env he with ⟨v, _, herror⟩ | hrun
    · rw [herror] at h
      cases h
    · rw [hrun] at h
      obtain ⟨m, hm, rfl⟩ := onOut_ok (appends_field env.aeskeyCipher) h
      rw [World.shared_self] at hm
      exact ⟨m, hm, rfl⟩

/-- The message that answers a HELLO with this challenge. -/
def HelloEnv.ack (env : HelloEnv) (challenge : Field 16) (encrypted : Bool) : List UInt8 :=
  scmdHelloAck :: (shortBytes (signClientChallenge env challenge).2.toUInt16 ++
    (signClientChallenge env challenge).1.take (signClientChallenge env challenge).2) ++
      (if encrypted then env.aeskeyCipher.bytes else []) ++ env.challenge.bytes

/-- The state after the HELLO of a server has been answered in its buffer. -/
def World.answered (w : World N) (env : HelloEnv) (q2 : Fin N) : World N :=
  { w.updateServer q2 fun s ↦ (s.challenge env).share env with
    trace := (w.servers q2).sharing q2 ++ w.trace }

/-- The server has been given a challenge and a session key. -/
@[simp] theorem World.answered_self (w : World N) (env : HelloEnv) (q2 : Fin N) :
    (w.answered env q2).servers q2 = ((w.servers q2).challenge env).share env :=
  w.updateServer_self q2 fun s ↦ (s.challenge env).share env

/-- Other servers keep their challenges and keys. -/
@[simp] theorem World.answered_of_ne (w : World N) (env : HelloEnv) {q2 s : Fin N} (h : s ≠ q2) :
    (w.answered env q2).servers s = w.servers s :=
  w.updateServer_of_ne (fun s ↦ (s.challenge env).share env) h

/-- The state after it has been found that the HELLO cannot be answered. -/
def World.unanswered (w : World N) (env : HelloEnv) (q2 : Fin N) : World N :=
  { w.updateServer q2 (Q2Server.challenge env) with
    trace := releasing q2 .key ((w.servers q2).publickey.map RsaKey.handle) ++ w.trace }

/-- The server has been given a challenge only. -/
@[simp] theorem World.unanswered_self (w : World N) (env : HelloEnv) (q2 : Fin N) :
    (w.unanswered env q2).servers q2 = (w.servers q2).challenge env :=
  w.updateServer_self q2 _

/-- Other servers keep their challenges. -/
@[simp] theorem World.unanswered_of_ne (w : World N) (env : HelloEnv) {q2 s : Fin N} (h : s ≠ q2) :
    (w.unanswered env q2).servers s = w.servers s :=
  w.updateServer_of_ne _ h

/-- A HELLO is answered in the buffer of its server, or it is not answered. -/
theorem serverAuthResponse_ok {c : Crypto} {env : HelloEnv} {q2 : Fin N} {challenge : Field 16}
    {b : Bool} {w w' : World N} (h : (serverAuthResponse c env q2 challenge).run w = .ok b w') :
    b = env.answers challenge ∧
      if b then
        ∃ m, Written (w.servers q2).msg
            (env.ack challenge (w.servers q2).connection.encrypted) m ∧
          (sendBuffer c q2).run ((w.answered env q2).holding q2 m) = .ok () w'
      else w' = w.unanswered env q2 := by
  unfold HelloEnv.answers
  unfold serverAuthResponse at h
  have hack : Appends (do
      msgWriteByte scmdHelloAck
      msgWriteShort (signClientChallenge env challenge).2.toUInt16
      msgWriteData (signClientChallenge env challenge).1 (signClientChallenge env challenge).2)
      ([scmdHelloAck] ++ (shortBytes (signClientChallenge env challenge).2.toUInt16 ++
        (signClientChallenge env challenge).1.take (signClientChallenge env challenge).2)) :=
    appends_bind (appends_byte _) (appends_bind (appends_short _) (appends_data _ _))
  obtain ⟨_, w₁, h₁, h⟩ := run_bind_ok h
  obtain rfl := modifyServer_ok h₁
  unfold HelloEnv.ack
  generalize signClientChallenge env challenge = signature at h hack ⊢
  rcases signature with ⟨cipher, len⟩
  dsimp only at h hack ⊢
  by_cases hlong : rsaLen < cipher.length
  · rw [if_pos hlong] at h
    cases h
  rw [if_neg hlong] at h
  by_cases hlen : len = 0
  · rw [if_pos hlen] at h
    obtain ⟨s, w₂, h₂, h⟩ := run_bind_ok h
    obtain ⟨rfl, rfl⟩ := look_ok h₂
    rw [run_bind_of_ok (release_run _ _ _ _)] at h
    cases h
    refine ⟨by simp [hlen], ?_⟩
    rw [if_neg (by simp), World.updateServer_self]
    rfl
  · rw [if_neg hlen] at h
    obtain ⟨_, w₂, h₂, h⟩ := run_bind_ok h
    obtain ⟨_, w₃, h₃, h⟩ := run_bind_ok h
    obtain ⟨_, w₄, h₄, h⟩ := run_bind_ok h
    obtain ⟨_, w₅, h₅, h⟩ := run_bind_ok h
    cases h
    refine ⟨by simp [hlen], ?_⟩
    rw [if_pos rfl]
    obtain ⟨m₁, hm₁, rfl⟩ := onOut_ok hack h₂
    obtain ⟨m₂, hm₂, rfl⟩ := sendSessionKey_ok h₃
    obtain ⟨m₃, hm₃, rfl⟩ := onOut_ok (appends_field env.challenge) h₄
    simp only [World.updateServer_self, World.holding_self] at hm₁ hm₂ hm₃
    refine ⟨m₃, (hm₁.trans hm₂).trans hm₃, ?_⟩
    rw [← h₅]
    congr 1
    simp only [World.answered, World.shared, World.holding, World.updateServer,
      Function.update_self, Function.update_idem]
    rfl

/-- What is returned of the signature is its length, and it fits `cipher`. -/
theorem serverAuthResponse_signed {c : Crypto} {env : HelloEnv} {q2 : Fin N}
    {challenge : Field 16} {b : Bool} {w w' : World N}
    (h : (serverAuthResponse c env q2 challenge).run w = .ok b w') :
    env.sign challenge ≠ .failed ∧ (signClientChallenge env challenge).1.length ≤ rsaLen := by
  obtain ⟨_, w₁, _, h⟩ := run_bind_ok h
  refine ⟨fun hfailed ↦ ?_, ?_⟩
  · have hsign : signClientChallenge env challenge = ([], 0xffffffffffffffff) := by
      unfold signClientChallenge
      rw [hfailed]
    rw [hsign] at h
    dsimp only at h
    rw [if_neg (by decide), if_neg (by decide)] at h
    obtain ⟨_, w₂, h₂, _⟩ := run_bind_ok h
    unfold onOut at h₂
    rw [run_zoom] at h₂
    split at h₂
    · next hwrite =>
      obtain ⟨_, m₁, _, hwrite⟩ := run_bind_ok hwrite
      obtain ⟨_, m₂, _, hwrite⟩ := run_bind_ok hwrite
      cases hwrite
    · cases h₂
  · generalize signClientChallenge env challenge = signature at h ⊢
    rcases signature with ⟨cipher, len⟩
    dsimp only at h ⊢
    by_contra hlong
    rw [if_pos (Nat.lt_of_not_le hlong)] at h
    cases h

/-- The message that refuses a HELLO. -/
def helloRefusal : List UInt8 :=
  errorBytes 0xff errEncryption (ascii "Problems encrypting sv_challenge")

/-- The message with which a HELLO is met. -/
def HelloEnv.reply (env : HelloEnv) (h : Hello) : List UInt8 :=
  if env.answers h.challenge then env.ack h.challenge (h.encrypted ≠ 0) else helloRefusal

/-- The state in which the reply to the HELLO of a server is ready to be sent. -/
def World.replying (w : World N) (env : HelloEnv) (h : Hello) (i : Nat) (q2 : Fin N) : World N :=
  let w₁ := (w.claimed h i q2).keyed q2 env.keyFile
  if env.answers h.challenge then w₁.answered env q2 else w₁.unanswered env q2

/-- The record of a server as its HELLO has bound it. -/
def Q2Server.welcome (env : HelloEnv) (h : Hello) (i fd n : Nat) (s : Q2Server) : Q2Server :=
  (s.claim h i fd).keyed n env.keyFile

/-- What happens to the public key of a server while its HELLO is dealt with. -/
def Q2Server.welcoming (env : HelloEnv) (h : Hello) (q2 : Fin N) (n : Nat) (s : Q2Server) :
    List Event :=
  (if env.answers h.challenge then s.sharing q2
    else World.releasing q2 .key (s.publickey.map RsaKey.handle)) ++ env.keyFile.creating q2 n

/-- A HELLO uses the public key of its server, frees it, or creates it. -/
theorem mem_welcoming {env : HelloEnv} {h : Hello} {q2 : Fin N} {n : Nat} {s : Q2Server} {e : Event}
    (he : e ∈ s.welcoming env h q2 n) :
    (∃ m, e = .used q2 .key m ∨ e = .released q2 .key m) ∨
      (e = .created q2 .key n ∧ env.keyFile.creates = true) := by
  rcases List.mem_append.mp he with he | he
  · left
    split at he
    · unfold Q2Server.sharing at he
      split at he
      · obtain ⟨k, _, hk⟩ := Option.map_eq_some_iff.mp (Option.mem_toList.mp he)
        exact ⟨k.handle, .inl hk.symm⟩
      · cases he
    · obtain ⟨m, _, hm⟩ := Option.map_eq_some_iff.mp (Option.mem_toList.mp he)
      exact ⟨m, .inr hm.symm⟩
  · right
    unfold KeyFile.creating at he
    split at he
    · next hcreates => exact ⟨List.mem_singleton.mp he, hcreates⟩
    · cases he

/-- What a HELLO has made of its server when the reply is in the buffer. -/
theorem World.replying_self (w : World N) (env : HelloEnv) (h : Hello) (i : Nat) (q2 : Fin N) :
    (w.replying env h i q2).servers q2 =
      let s := ((w.servers q2).welcome env h i (w.sockets i).fd w.nextHandle).challenge env
      if env.answers h.challenge then s.share env else s := by
  unfold World.replying
  split
  · rw [World.answered_self, World.keyed_self, World.claimed_self]
    rfl
  · rw [World.unanswered_self, World.keyed_self, World.claimed_self]
    rfl

/-- A HELLO leaves other servers alone. -/
theorem World.replying_of_ne (w : World N) (env : HelloEnv) (h : Hello) (i : Nat) {q2 s : Fin N}
    (hs : s ≠ q2) : (w.replying env h i q2).servers s = w.servers s := by
  unfold World.replying
  split
  · rw [World.answered_of_ne _ _ hs, World.keyed_of_ne _ _ hs, World.claimed_of_ne _ _ _ hs]
  · rw [World.unanswered_of_ne _ _ hs, World.keyed_of_ne _ _ hs, World.claimed_of_ne _ _ _ hs]

/-- The reply goes to the socket that has been bound. -/
theorem World.replying_wireOf (w : World N) (env : HelloEnv) (h : Hello) (i : Nat) (q2 : Fin N) :
    (w.replying env h i q2).wireOf q2 = (w.sockets i).fd := by
  have hsockets : (w.replying env h i q2).sockets = w.sockets := by
    unfold World.replying
    split <;> rfl
  have hindex : ((w.replying env h i q2).servers q2).index = i := by
    rw [World.replying_self]
    dsimp only
    split <;> rfl
  unfold World.wireOf
  rw [hsockets, hindex]

/-- What a HELLO has noted when the reply is in the buffer. -/
theorem World.replying_trace (w : World N) (env : HelloEnv) (h : Hello) (i : Nat) (q2 : Fin N) :
    (w.replying env h i q2).trace =
      ((w.servers q2).welcome env h i (w.sockets i).fd w.nextHandle).welcoming env h q2
        w.nextHandle ++ .bound q2 (w.sockets i).fd :: w.trace := by
  have hself : ((w.claimed h i q2).keyed q2 env.keyFile).servers q2 =
      (w.servers q2).welcome env h i (w.sockets i).fd w.nextHandle := by
    rw [World.keyed_self, World.claimed_self]
    rfl
  unfold World.replying Q2Server.welcoming
  rw [← hself, List.append_assoc]
  split
  · rfl
  · rfl

/-- Before the reply nothing is sent. -/
theorem World.replying_sends (w : World N) (env : HelloEnv) (h : Hello) (i : Nat) (q2 : Fin N) :
    (w.replying env h i q2).sends = w.sends := by
  unfold World.sends
  rw [World.replying_trace, List.filter_append, List.filter_cons_of_neg Bool.false_ne_true]
  refine congrArg (· ++ _) (List.filter_eq_nil_iff.mpr fun e he ↦ ?_)
  rcases mem_welcoming he with ⟨m, rfl | rfl⟩ | ⟨rfl, _⟩
  · exact Bool.false_ne_true
  · exact Bool.false_ne_true
  · exact Bool.false_ne_true

/-- A HELLO creates one handle, or none if there is no key in the file. -/
theorem World.replying_nextHandle (w : World N) (env : HelloEnv) (h : Hello) (i : Nat)
    (q2 : Fin N) : (w.replying env h i q2).nextHandle =
      if env.keyFile.creates then w.nextHandle + 1 else w.nextHandle := by
  unfold World.replying
  split <;> rfl

/-- A HELLO with a key that no server has does nothing. -/
theorem registerHello_unknown {c : Crypto} {env : HelloEnv} {i : Nat} {h : Hello} {w : World N}
    (hkey : w.serverOfKey h.key = none) : (registerHello c env i h).run w = .ok none w := by
  have hlook : (look fun w : World N ↦ w.serverOfKey h.key).run w =
      .ok (w.serverOfKey h.key) w := rfl
  unfold registerHello
  rw [run_bind_of_ok hlook, hkey]
  rfl

/-- A HELLO of a registered server is dealt with only if its key file is there, and only if the
signature could be made and fits. -/
theorem registerHello_signed {c : Crypto} {env : HelloEnv} {i : Nat} {h : Hello} {q2 : Fin N}
    {found : Option (Fin N)} {w w' : World N} (hkey : w.serverOfKey h.key = some q2)
    (hr : (registerHello c env i h).run w = .ok found w') : env.keyFile ≠ .missing ∧
      env.sign h.challenge ≠ .failed ∧
      (signClientChallenge env h.challenge).1.length ≤ rsaLen := by
  obtain ⟨f, w₁, h₁, hr⟩ := run_bind_ok hr
  obtain ⟨rfl, rfl⟩ := look_ok h₁
  rw [hkey] at hr
  obtain ⟨_, w₂, h₂, hr⟩ := run_bind_ok hr
  obtain ⟨b, w₃, h₃, _⟩ := run_bind_ok hr
  exact ⟨(bindServer_ok h₂).1, serverAuthResponse_signed h₃⟩

/-- What a HELLO leaves. -/
theorem registerHello_ok {c : Crypto} {env : HelloEnv} {i : Nat} {h : Hello} {q2 : Fin N}
    {found : Option (Fin N)} {w w' : World N} (hkey : w.serverOfKey h.key = some q2)
    (hr : (registerHello c env i h).run w = .ok found w') :
    env.keyFile ≠ .missing ∧ found = (if env.answers h.challenge then some q2 else none) ∧
      ∃ plain, w' = (w.replying env h i q2).posted q2 plain
          (((w.replying env h i q2).servers q2).wire c plain) ∧
        ((w.servers q2).msg = .zero → plain = env.reply h) := by
  obtain ⟨f, w₁, h₁, hr⟩ := run_bind_ok hr
  obtain ⟨rfl, rfl⟩ := look_ok h₁
  rw [hkey] at hr
  obtain ⟨_, w₂, h₂, hr⟩ := run_bind_ok hr
  obtain ⟨b, w₃, h₃, hr⟩ := run_bind_ok hr
  obtain ⟨hfile, rfl⟩ := bindServer_ok h₂
  obtain ⟨hb, hw⟩ := serverAuthResponse_ok h₃
  refine ⟨hfile, ?_⟩
  unfold World.replying HelloEnv.reply
  rw [← hb]
  cases b with
  | true =>
    cases hr
    obtain ⟨m, hm, hs⟩ := hw
    have hself : (((w.claimed h i q2).keyed q2 env.keyFile).answered env q2).servers q2 =
        ((((w.servers q2).claim h i (w.sockets i).fd).keyed w.nextHandle env.keyFile).challenge
          env).share env := by
      rw [World.answered_self, World.keyed_self, World.claimed_self]
      rfl
    rw [World.keyed_self, World.claimed_self] at hm
    refine ⟨rfl, ?_⟩
    have hpos : 0 < (env.ack h.challenge (h.encrypted ≠ 0)).length := by
      simp only [HelloEnv.ack, List.length_append, List.length_cons]
      omega
    obtain ⟨plain, hpost, hplain⟩ :=
      sendBuffer_holding (by rw [hself]; exact hm) hpos (by rw [hself]; rfl) hs
    rw [hself] at hplain
    exact ⟨plain, hpost, hplain⟩
  | false =>
    obtain ⟨_, w₄, h₄, hr⟩ := run_bind_ok hr
    cases hr
    rw [if_neg (by simp)] at hw
    have hself : w₃.servers q2 = (((w.servers q2).claim h i (w.sockets i).fd).keyed w.nextHandle
        env.keyFile).challenge env := by
      rw [hw, World.unanswered_self, World.keyed_self, World.claimed_self]
      rfl
    refine ⟨rfl, ?_⟩
    obtain ⟨plain, hpost, hplain⟩ := sendError_ok (by rw [hself]; rfl) h₄
    rw [hself] at hplain
    rw [hw] at hpost
    exact ⟨plain, hpost, hplain⟩

end Q2Admin
