import Q2Admin.Base.Parser
import Q2Admin.Command.Frame
import Q2Admin.Session.Room
import Q2Admin.Session.Turn

/-!
# The messages to game servers

Library `Q2Admin.Session`. Every message but a HELLOACK says where it ends: its texts hold no NUL
up to their terminators. A HELLOACK says how long its signature is, and nothing is sent behind it
in one message. So what is sent can be read as messages in one way only.
-/

namespace Q2Admin

open Exec

variable {N : Nat}

/-- The messages to game servers. -/
inductive Reply
  /-- The signed challenge, a session key if one was asked for, and a challenge of our own. -/
  | helloAck (signed : List UInt8) (fits : signed.length ≤ rsaLen)
      (session : Option (Field rsaLen)) (challenge : Field challengeLen)
  | error (id code : UInt8) (text : List UInt8) (string : (0 : UInt8) ∉ text)
  | trusted
  | pong
  | command (text : List UInt8) (string : (0 : UInt8) ∉ text)
  | sayClient (clientId level : UInt8) (text : List UInt8) (string : (0 : UInt8) ∉ text)
  | sayAll (text : List UInt8) (string : (0 : UInt8) ∉ text)

namespace Reply

/-- The bytes of a message. -/
def wire : Reply → List UInt8
  | helloAck signed _ session challenge =>
    scmdHelloAck :: (shortBytes signed.length.toUInt16 ++ signed) ++
      session.elim [] Field.bytes ++ challenge.bytes
  | error id code text _ => errorBytes id code text
  | trusted => [scmdTrusted]
  | pong => [scmdPong]
  | command text _ => [scmdCommand] ++ (text ++ [0])
  | sayClient clientId level text _ => sayClientBytes clientId level text
  | sayAll text _ => sayAllBytes text

/-- The message is one with which a connection may begin. -/
def opens : Reply → Bool
  | helloAck _ _ _ _ | error _ _ _ _ => true
  | _ => false

private theorem wire_ne_nil (r : Reply) : r.wire ≠ [] := by
  cases r <;> exact List.cons_ne_nil _ _

private theorem head_append (r : Reply) (rest : List UInt8) :
    (r.wire ++ rest).head? = r.wire.head? := by
  cases r <;> rfl

-- The texts of two messages of one kind end at the same terminator.
private theorem text_inj {head text text' rest rest' : List UInt8} (hs : (0 : UInt8) ∉ text)
    (hs' : (0 : UInt8) ∉ text')
    (h : head ++ (text ++ [0]) ++ rest = head ++ (text' ++ [0]) ++ rest') :
    text = text' ∧ rest = rest' := by
  simp only [List.append_assoc, List.append_cancel_left_eq] at h
  exact append_nul_inj hs hs' h

private theorem front_inj (r r' : Reply) (rest rest' : List UInt8) (hr : r.opens = false)
    (hr' : r'.opens = false) (h : r.wire ++ rest = r'.wire ++ rest') : r = r' ∧ rest = rest' := by
  have hhead : r.wire.head? = r'.wire.head? := by
    rw [← head_append r rest, h, head_append r' rest']
  cases r with
  | helloAck | error => cases hr
  | trusted =>
    cases r' with
    | trusted => exact ⟨rfl, List.append_cancel_left h⟩
    | helloAck | error => cases hr'
    | _ => cases hhead
  | pong =>
    cases r' with
    | pong => exact ⟨rfl, List.append_cancel_left h⟩
    | helloAck | error => cases hr'
    | _ => cases hhead
  | command text hs =>
    cases r' with
    | command text' hs' =>
      obtain ⟨rfl, hrest⟩ := text_inj hs hs' h
      exact ⟨rfl, hrest⟩
    | helloAck | error => cases hr'
    | _ => cases hhead
  | sayClient clientId level text hs =>
    cases r' with
    | sayClient clientId' level' text' hs' =>
      obtain ⟨hid, hlevel, htext⟩ : clientId = clientId' ∧ level = level' ∧
          text ++ 0 :: rest = text' ++ 0 :: rest' := by
        simpa [wire, sayClientBytes] using h
      obtain ⟨rfl, hrest⟩ := append_nul_inj hs hs' htext
      rw [hid, hlevel]
      exact ⟨rfl, hrest⟩
    | helloAck | error => cases hr'
    | _ => cases hhead
  | sayAll text hs =>
    cases r' with
    | sayAll text' hs' =>
      obtain ⟨rfl, hrest⟩ := text_inj hs hs' h
      exact ⟨rfl, hrest⟩
    | helloAck | error => cases hr'
    | _ => cases hhead

/-- Messages behind the first one are read in one way. -/
theorem wire_inj {l l' : List Reply} (hl : ∀ r ∈ l, r.opens = false)
    (hl' : ∀ r ∈ l', r.opens = false) (h : l.flatMap wire = l'.flatMap wire) : l = l' :=
  flatMap_codes_inj (p := fun r ↦ r.opens = false) wire_ne_nil front_inj hl hl' h

private theorem length_inj {n m : Nat} (hn : n ≤ rsaLen) (hm : m ≤ rsaLen)
    (h : shortBytes n.toUInt16 = shortBytes m.toUInt16) : n = m := by
  have hsize : rsaLen = 256 := rfl
  have hval : n % 0x10000 = m % 0x10000 := congrArg UInt16.toNat (shortBytes_inj h)
  omega

private theorem session_inj {session session' : Option (Field rsaLen)}
    (h : session.elim [] Field.bytes = session'.elim [] Field.bytes) : session = session' := by
  have hne (k : Field rsaLen) : k.bytes ≠ [] := fun hnil ↦ by
    have hlength := k.length_eq
    rw [hnil] at hlength
    cases hlength
  cases session with
  | none =>
    cases session' with
    | none => rfl
    | some k => exact absurd h.symm (hne k)
  | some k =>
    cases session' with
    | none => exact absurd h (hne k)
    | some k' => rw [Field.ext h]

/-- A first message is read in one way. -/
theorem opens_inj {r r' : Reply} (hr : r.opens = true) (hr' : r'.opens = true)
    (h : r.wire = r'.wire) : r = r' := by
  cases r with
  | helloAck signed fits session challenge =>
    cases r' with
    | helloAck signed' fits' session' challenge' =>
      have hbody : shortBytes signed.length.toUInt16 ++
            (signed ++ (session.elim [] Field.bytes ++ challenge.bytes)) =
          shortBytes signed'.length.toUInt16 ++
            (signed' ++ (session'.elim [] Field.bytes ++ challenge'.bytes)) := by
        simpa [wire] using h
      obtain ⟨hshort, hrest⟩ := List.append_inj hbody rfl
      obtain ⟨hsigned, hends⟩ := List.append_inj hrest (length_inj fits fits' hshort)
      obtain ⟨hsession, hchallenge⟩ := List.append_inj' hends
        (challenge.length_eq.trans challenge'.length_eq.symm)
      subst hsigned
      rw [session_inj hsession, Field.ext hchallenge]
    | error => cases congrArg List.head? h
    | _ => cases hr'
  | error id code text hs =>
    cases r' with
    | error id' code' text' hs' =>
      obtain ⟨hid, hcode, htext⟩ : id = id' ∧ code = code' ∧ text ++ [0] = text' ++ [0] := by
        simpa [wire, errorBytes] using h
      obtain ⟨rfl, _⟩ := append_nul_inj hs hs' htext
      rw [hid, hcode]
    | helloAck => cases congrArg List.head? h
    | _ => cases hr'
  | _ => cases hr

end Reply

/-- The reply to a HELLO is one with which a connection may begin, if the signature could be made
and fits. -/
theorem reply_opens {env : HelloEnv} {h : Hello} (hsign : env.sign h.challenge ≠ .failed)
    (hfits : (signClientChallenge env h.challenge).1.length ≤ rsaLen) :
    ∃ r : Reply, r.opens = true ∧ r.wire = env.reply h := by
  have hlength : (signClientChallenge env h.challenge).2 =
      (signClientChallenge env h.challenge).1.length := by
    unfold signClientChallenge
    cases hs : env.sign h.challenge with
    | noKey => rfl
    | failed => exact absurd hs hsign
    | signed cipher => rfl
  unfold HelloEnv.reply
  split
  · refine ⟨.helloAck (signClientChallenge env h.challenge).1 hfits
      (if h.encrypted ≠ 0 then some env.aeskeyCipher else none) env.challenge, rfl, ?_⟩
    unfold Reply.wire HelloEnv.ack
    rw [hlength, List.take_length]
    by_cases he : h.encrypted = 0
    · simp [he]
    · simp [he]
      rfl
  · exact ⟨.error 0xff errEncryption (ascii "Problems encrypting sv_challenge") (by decide), rfl,
      rfl⟩

private theorem nul_notMem_read {n : Nat} {m m' : MsgBuffer} {cmds : List Command}
    (h : (readCommands n).run m = .ok cmds m') {clientId : UInt8} {location : List UInt8}
    (hmem : .teleport clientId location ∈ cmds) : (0 : UInt8) ∉ location := by
  induction n generalizing m cmds with
  | zero =>
    cases h
    exact absurd hmem List.not_mem_nil
  | succ n ih =>
    rcases readCommands_ok h with ⟨_, rfl⟩ | ⟨_, cmd, rest, m₁, hcmd, hrest, rfl⟩
    · exact absurd hmem List.not_mem_nil
    · rcases List.mem_cons.mp hmem with rfl | hmem
      · obtain ⟨_, ⟨f, _, _, hf⟩, _⟩ := (decodes_command m _ m₁).mp hcmd
        cases f with
        | teleport clientId' text =>
          cases hf
          exact text.nul_notMem_value
        | _ => cases hf
      · exact ih hrest hmem

/-- The location of a TELEPORT that is heard is a string. -/
theorem nul_notMem_heard {c : Crypto} {env : Answer} {i : Nat} {w : World N} {q2 : Fin N}
    {cmds : List Command} (h : w.heard c env i = some (q2, cmds)) {clientId : UInt8}
    {location : List UInt8} (hmem : .teleport clientId location ∈ cmds) :
    (0 : UInt8) ∉ location := by
  have hcommands {s : Q2Server} {m : MsgBuffer} {q : Fin N}
      (hs : (s.commands c m).map (fun cmds ↦ (q, cmds)) = some (q2, cmds)) :
      (0 : UInt8) ∉ location := by
    obtain ⟨_, hread, hpair⟩ := Option.map_eq_some_iff.mp hs
    cases hpair
    unfold Q2Server.commands at hread
    split at hread
    · next hrun =>
      cases hread
      exact nul_notMem_read hrun hmem
    · cases hread
  unfold World.heard at h
  split at h
  · split at h
    · exact hcommands h
    · cases h
  · split at h
    · split at h
      · exact hcommands h
      · cases h
    · cases h

end Q2Admin
