import Q2Admin.Loop.Challenge

/-!
# What an AUTH may contain

Library `Q2Admin.Loop`. Source `server.c:279–311` and `msg.c:6–10`.
`VerifyClientChallenge` copies as many bytes as the message says, and has the block
recovered from them stored in an array of `CHALLENGE_LEN` bytes, which is compared with the
length of the block only afterwards.
-/

namespace Q2Admin

open Exec

variable {N : Nat}

/-- The longest block that `RSA_public_decrypt` returns with `RSA_PKCS1_PADDING`. -/
def blockLen : Nat := rsaLen - 11

/-- What the documentation of `RSA_public_decrypt` promises about its output. -/
def Crypto.Padded (c : Crypto) : Prop :=
  ∀ key cipher block, c.rsaPublicDecrypt key cipher = some block → block.length ≤ blockLen

/-- The length in front of the block of an AUTH. -/
def MsgBuffer.wireLength (m : MsgBuffer) : Nat :=
  ((m.byteAt m.index).toUInt16 + ((m.byteAt (m.index + 1)).toUInt16 <<< 8)).toNat

/-- The block fits `cipher` and ends within the message. -/
def MsgBuffer.HoldsBlock (m : MsgBuffer) : Prop :=
  m.wireLength ≤ rsaLen ∧ m.index + 2 + m.wireLength ≤ m.length

/-- Whatever blocks are recovered, `VerifyClientChallenge` returns without a store outside
`cipher` and `plaintext`, has fetched nothing behind the message, and answers false where
the length does not fit. -/
def AuthContained (q2 : Fin N) (w : World N) : Prop :=
  ∀ c : Crypto, c.Padded →
    ∃ b w', (verifyClientChallenge c q2).run w = .ok b w' ∧
      w'.msg.touched ≤ max w.msg.touched w.msg.length ∧ (¬ w.msg.HoldsBlock → b = false)

/-- A block longer than `cipher` is copied behind its end. -/
theorem checkAnswer_overlong (c : Crypto) (q2 : Fin N) {cipher : List UInt8} (w : World N)
    (h : rsaLen < cipher.length) : (checkAnswer c q2 cipher).run w = .error .overwrite w := by
  unfold checkAnswer
  rw [if_pos h]
  rfl

/-- So is every such block of an AUTH. -/
theorem verifyClientChallenge_overlong (c : Crypto) (q2 : Fin N) {w : World N}
    {d : List UInt8} (hlong : rsaLen < d.length) (hlt : d.length < 0x10000)
    (h : Stands w.msg (shortBytes d.length.toUInt16 ++ d)) :
    ∃ w', (verifyClientChallenge c q2).run w = .error .overwrite w' := by
  have hlen : d.length.toUInt16.toNat = d.length := by
    rw [Nat.toUInt16, UInt16.toNat_ofNat']
    exact Nat.mod_eq_of_lt hlt
  obtain ⟨hshort, hdata⟩ := stands_append.mp h
  have hread : Reads (msgReadData d.length.toUInt16.toNat) d ⟨d, hlen.symm⟩ :=
    (decodes_data _).reads rfl
  have hfirst := run_zoom_of_ok (l := inMsg) (s := w) (reads_short _ _ hshort)
  have hsecond := run_zoom_of_ok (l := inMsg)
    (s := inMsg.set (w.msg.advance (shortBytes d.length.toUInt16).length) w) (hread _ hdata)
  unfold verifyClientChallenge onMsg
  rw [run_bind_of_ok hfirst]
  exact ⟨_, (run_bind_of_ok hsecond).trans (checkAnswer_overlong c q2 _ hlong)⟩

/-- The check returns for the blocks that fit `cipher` and from which, with the key of the
server, nothing is recovered that does not fit `plaintext`. -/
theorem checkAnswer_returns_iff (c : Crypto) (q2 : Fin N) (cipher : List UInt8) (w : World N) :
    (∃ b w', (checkAnswer c q2 cipher).run w = .ok b w') ↔
      cipher.length ≤ rsaLen ∧ ∃ k, (w.servers q2).publickey = some k ∧
        ∀ block, c.rsaPublicDecrypt k.key cipher = some block → block.length ≤ challengeLen := by
  by_cases hlen : rsaLen < cipher.length
  · rw [checkAnswer_overlong c q2 w hlen]
    constructor
    · rintro ⟨b, w', h⟩
      cases h
    · rintro ⟨h, _⟩
      omega
  have hserver : (server q2).run w = .ok (w.servers q2) w := rfl
  unfold checkAnswer
  rw [if_neg hlen, run_bind_of_ok hserver]
  cases hk : (w.servers q2).publickey with
  | none =>
    constructor
    · rintro ⟨b, w', h⟩
      cases h
    · rintro ⟨_, k, h, _⟩
      cases h
  | some k =>
    have hused : (logEvent (.used q2 .key k.handle)).run w = .ok () (w.deciphered q2 k) := rfl
    dsimp only
    rw [run_bind_of_ok hused]
    cases hd : c.rsaPublicDecrypt k.key cipher with
    | none =>
      constructor
      · intro _
        refine ⟨by omega, k, rfl, ?_⟩
        intro block hblock
        rw [hd] at hblock
        cases hblock
      · intro _
        exact ⟨_, _, rfl⟩
    | some plaintext =>
      dsimp only
      by_cases hlong : challengeLen < plaintext.length
      · rw [if_pos hlong]
        constructor
        · rintro ⟨b, w', h⟩
          cases h
        · rintro ⟨_, k', hk', h⟩
          cases hk'
          have := h plaintext hd
          omega
      rw [if_neg hlong]
      constructor
      · intro _
        refine ⟨by omega, k, rfl, ?_⟩
        intro block hblock
        rw [hd] at hblock
        cases hblock
        omega
      · intro _
        by_cases hsize : plaintext.length ≠ challengeLen
        · rw [if_pos hsize]
          exact ⟨_, _, rfl⟩
        rw [if_neg hsize]
        by_cases heq : plaintext = (w.servers q2).connection.clChallenge.bytes
        · rw [if_pos heq, run_bind_of_ok (grantTrust_run q2 _)]
          exact ⟨_, _, rfl⟩
        · rw [if_neg heq]
          exact ⟨_, _, rfl⟩

/-- So `VerifyClientChallenge` returns exactly when a block of at most `RSA_LEN` bytes can be
read, the server has a key, and what is recovered has at most `CHALLENGE_LEN` bytes. -/
theorem verifyClientChallenge_returns_iff (c : Crypto) (q2 : Fin N) (w : World N) :
    (∃ b w', (verifyClientChallenge c q2).run w = .ok b w') ↔
      ∃ cipher m, readAnswer.run w.msg = .ok cipher m ∧ cipher.length ≤ rsaLen ∧
        ∃ k, (w.servers q2).publickey = some k ∧
          ∀ block, c.rsaPublicDecrypt k.key cipher = some block →
            block.length ≤ challengeLen := by
  constructor
  · rintro ⟨b, w', h⟩
    obtain ⟨cipher, m, hread, hcheck⟩ := (verify_splits c q2 w b w').mp h
    have hfit := (checkAnswer_returns_iff c q2 cipher (inMsg.set m w)).mp ⟨b, w', hcheck⟩
    exact ⟨cipher, m, hread, hfit⟩
  · rintro ⟨cipher, m, hread, hfit⟩
    obtain ⟨b, w', hcheck⟩ := (checkAnswer_returns_iff c q2 cipher { w with msg := m }).mpr hfit
    exact ⟨b, w', (verify_splits c q2 w b w').mpr ⟨cipher, m, hread, hcheck⟩⟩

-- Blocks of one byte more than `CHALLENGE_LEN`, whatever is handed over.
private def longBlocks : Crypto :=
  { Crypto.clear with rsaPublicDecrypt := fun _ _ ↦ some (List.replicate (challengeLen + 1) 0) }

private theorem longBlocks_padded : longBlocks.Padded := by
  intro key cipher block h
  cases h
  decide

/-- No AUTH is handled within these bounds: where the block itself fits, what is recovered
from it need not fit `plaintext`. -/
theorem auth_not_contained (q2 : Fin N) (w : World N) : ¬ AuthContained q2 w := by
  intro h
  obtain ⟨b, w', hrun, _⟩ := h longBlocks longBlocks_padded
  obtain ⟨cipher, m, _, _, k, _, hblock⟩ :=
    (verifyClientChallenge_returns_iff longBlocks q2 w).mp ⟨b, w', hrun⟩
  have hlen := hblock _ rfl
  rw [List.length_replicate] at hlen
  omega

-- A server that has said HELLO sends an AUTH with a block of `RSA_LEN + 1` bytes.
private def sampleOverlong : World 1 :=
  { sampleStart with
    servers := fun q2 ↦
      { sampleStart.servers q2 with connected := true, publickey := some ⟨0, []⟩ }
    msg := .received (shortBytes 257 ++ List.replicate 257 0) }

/-- The last byte of the block is stored behind `cipher`. -/
theorem auth_overruns :
    (∀ c : Crypto, ∃ w', (verifyClientChallenge c 0).run sampleOverlong = .error .overwrite w') ∧
    (sampleOverlong.servers 0).trusted = false ∧ ¬ AuthContained 0 sampleOverlong := by
  have hrun (c : Crypto) :
      ∃ w', (verifyClientChallenge c 0).run sampleOverlong = .error .overwrite w' := by
    have hlen : sampleOverlong.msg.data.length ≤ msgSpace := by
      change (shortBytes 257 ++ List.replicate 257 (0 : UInt8)).length ≤ _
      rw [List.length_append, List.length_replicate]
      decide
    apply verifyClientChallenge_overlong c 0 (d := List.replicate 257 0)
    · rw [List.length_replicate]
      decide
    · rw [List.length_replicate]
      decide
    · rw [List.length_replicate]
      exact stands_of_drop hlen (List.append_nil _).symm
  refine ⟨hrun, rfl, ?_⟩
  intro h
  obtain ⟨w', hfault⟩ := hrun longBlocks
  obtain ⟨b, v, hok, _⟩ := h longBlocks longBlocks_padded
  cases hfault.symm.trans hok

end Q2Admin
