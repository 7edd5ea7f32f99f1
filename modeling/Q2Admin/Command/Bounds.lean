import Q2Admin.Command.Frame
import Q2Admin.Command.Message

/-!
# Bytes that are fetched from a message

Library `Q2Admin.Command`. At a complete command no outcome of its handler has fetched a
byte behind it, faults included. So the loop of `ParseMessage` stays inside the first `n`
bytes of a message that are complete commands, and when it returns without having left
them, they were.
-/

namespace Q2Admin

open Exec

variable {N : Nat} {α : Type}

private theorem takes_act {x : M N α} (h : Detached x) : Takes inMsg.get x [] :=
  takes_of_keeps h.blind.keeps

private theorem takes_string_act (t : Text) {f : List UInt8 → M N α}
    (hf : ∀ s, Detached (f s)) :
    Takes inMsg.get (do let s ← onMsg msgReadString; f s) t.wire := by
  have h := takes_bind (takes_zoom (l := inMsg) (takes_string t)) fun (_ : World N) s _ _ _ ↦
    takes_act (hf s)
  rwa [List.append_nil] at h

private theorem takes_byte_string (b : UInt8) (t : Text) {f : UInt8 → List UInt8 → M N α}
    (hf : ∀ b s, Detached (f b s)) :
    Takes inMsg.get (do let b ← onMsg msgReadByte; let s ← onMsg msgReadString; f b s)
      (b :: t.wire) :=
  takes_zoom_bind (e := [b]) (reads_byte b) (takes_string_act t (hf b))

private theorem takes_parseAuth (c : Crypto) (q2 : Fin N) {cipher : List UInt8}
    (hlt : cipher.length < 0x10000) :
    Takes inMsg.get (parseAuth c q2) (shortBytes cipher.length.toUInt16 ++ cipher) := by
  have hlen : cipher.length.toUInt16.toNat = cipher.length := by
    rw [Nat.toUInt16, UInt16.toNat_ofNat']
    exact Nat.mod_eq_of_lt hlt
  have hdata : Reads (msgReadData cipher.length.toUInt16.toNat) cipher ⟨cipher, hlen.symm⟩ :=
    (decodes_data _).reads rfl
  unfold parseAuth verifyClientChallenge
  simp only [bind_assoc]
  apply takes_zoom_bind (reads_short _)
  have hact := takes_act (detached_bind (detached_checkAnswer c q2 cipher)
    (detached_concludeAuth c q2))
  have h := takes_zoom_bind (l := inMsg)
    (f := fun d ↦ checkAnswer c q2 d.bytes >>= concludeAuth c q2) hdata hact
  rwa [List.append_nil] at h

private theorem takes_countedLoop (q2 : Fin N) {count i : UInt8}
    {entries : List (UInt8 × Text)} (hd : Drives count i entries) {fuel : Nat}
    (hfuel : entries.length < fuel) :
    Takes inMsg.get (countedLoop q2 count fuel i) (entriesWire entries) := by
  induction entries generalizing i fuel with
  | nil =>
    obtain ⟨fuel, rfl⟩ := Nat.exists_eq_add_one_of_ne_zero (by omega : fuel ≠ 0)
    unfold countedLoop
    rw [if_neg hd]
    exact takes_act (detached_pure _)
  | cons e entries ih =>
    rw [List.length_cons] at hfuel
    obtain ⟨fuel, rfl⟩ := Nat.exists_eq_add_one_of_ne_zero (by omega : fuel ≠ 0)
    unfold countedLoop
    rw [if_pos hd.1, entriesWire_cons]
    apply takes_zoom_bind (reads_byte e.1)
    apply takes_bind (takes_zoom (takes_string e.2))
    intro _ userinfo _ _ _
    rw [← List.nil_append (entriesWire entries)]
    exact takes_bind (takes_act (detached_listPlayer q2 i e.1 userinfo)) fun _ _ _ _ _ ↦
      ih hd.2 (by omega)

private theorem takes_parsePlayerList (q2 : Fin N) {count : UInt8}
    {entries : List (UInt8 × Text)} (hd : Drives count 0 entries) :
    Takes inMsg.get (parsePlayerList q2) (count :: entriesWire entries) := by
  apply takes_zoom_bind (e := [count]) (reads_byte count)
  intro w hw
  have hmod : (modifyServer q2 fun s ↦ { s with playercount := count }).run w =
      .ok () (w.updateServer q2 fun s ↦ { s with playercount := count }) := rfl
  have hcount : ((w.updateServer q2 fun s ↦ { s with playercount := count }).servers
      q2).playercount = count := by simp
  rw [run_bind_of_ok hmod, playerListLoop_run msgSpace hcount]
  exact takes_countedLoop q2 hd (entries_length_lt hw) _ hw

/-- At a complete command nothing behind it is fetched. -/
theorem takes_parseNext (c : Crypto) (q2 : Fin N) (f : Frame) :
    Takes inMsg.get (parseNext c q2) f.wire := by
  apply takes_zoom_bind (e := [f.head]) (reads_byte f.head)
  have hpure : Takes (inMsg (N := N)).get (pure () : M N Unit) [] := takes_act (detached_pure _)
  cases f with
  | auth cipher hlt => exact takes_parseAuth c q2 hlt
  | quit => exact takes_act (detached_closeConnection q2)
  | ping => exact takes_act (talks_pong c q2).detached
  | print level text => exact takes_byte_string level text fun _ _ ↦ detached_pure _
  | teleport clientId location =>
    exact takes_zoom_bind (e := [CommandKind.teleport.byte]) (reads_byte _)
      (takes_byte_string clientId location fun b s ↦ (talks_teleport c q2 b s).detached)
  | invite clientId text =>
    exact takes_zoom_bind (e := [CommandKind.invite.byte]) (reads_byte _)
      (takes_byte_string clientId text fun b s ↦ (talks_invite c q2 b s).detached)
  | command kind silent =>
    apply takes_zoom_bind (e := [kind]) (reads_byte kind)
    cases hk : CommandKind.ofByte kind with
    | none => exact hpure
    | some k =>
      have hb := CommandKind.byte_of_ofByte hk
      cases k with
      | teleport => exact absurd hb.symm silent.1
      | invite => exact absurd hb.symm silent.2
      | whois => exact hpure
  | connect clientId userinfo =>
    exact takes_byte_string clientId userinfo (detached_playerConnect q2)
  | playerUpdate clientId userinfo =>
    exact takes_byte_string clientId userinfo (detached_enterPlayer q2)
  | disconnect clientId =>
    exact takes_zoom_bind (e := [clientId]) (reads_byte clientId)
      (takes_act (detached_modifyServer q2 _))
  | playerList count entries drives => exact takes_parsePlayerList q2 drives
  | map name => exact takes_string_act name fun _ ↦ detached_modifyServer q2 _
  | other cmd unhandled =>
    cases hk : ClientCmd.ofByte (Frame.other cmd unhandled).head with
    | none => exact hpure
    | some k =>
      have hun := unhandled k hk
      cases k with
      | null => exact hpure
      | hello => exact hpure
      | players => exact hpure
      | frag => exact hpure
      | _ => cases hun

/-- From the cursor on, as far as the loop of `ParseMessage` goes, the first `n` bytes of the
buffer are complete commands. -/
inductive MsgBuffer.Complete (n : Nat) : MsgBuffer → Prop
  | read {m : MsgBuffer} (h : m.unread = false) : Complete n m
  | command {m : MsgBuffer} (more : m.unread = true) (f : Frame) (h : Stands m f.wire)
      (inside : m.index + f.wire.length ≤ n) (rest : Complete n (m.advance f.wire.length)) :
      Complete n m

/-- No outcome of the loop has left complete commands. -/
theorem parseLoop_touched_le (c : Crypto) (q2 : Fin N) {n : Nat} (rounds : Nat) {w : World N}
    (hm : w.msg.Complete n) (ht : w.msg.touched ≤ n) :
    (final (parseLoop c q2 rounds) w).msg.touched ≤ n := by
  induction rounds generalizing w with
  | zero => exact ht
  | succ rounds ih =>
    unfold parseLoop
    rw [final_bind_of_ok (EStateM.run_get w)]
    cases hm with
    | read h =>
      rw [if_neg (by simp [h])]
      exact ht
    | command more f h inside rest =>
      rw [if_pos more]
      have hf := takes_parseNext c q2 f w h
      cases hr : (parseNext c q2).run w with
      | ok u w' =>
        rw [hr] at hf
        have hmsg : w'.msg = w.msg.advance f.wire.length := hf
        have hle := w.msg.advance_touched_le f.wire.length
        rw [final_bind_of_ok hr]
        exact ih (by rwa [hmsg]) (by rw [hmsg]; omega)
      | error e w' =>
        rw [hr] at hf
        have hle : w'.msg.touched ≤ max w.msg.touched (w.msg.index + f.wire.length) := hf
        rw [final_bind_of_error hr]
        omega

-- Commands that have been read without leaving the first `n` bytes were complete.
private theorem readCommands_complete {n rounds : Nat} {m m' : MsgBuffer} {cmds : List Command}
    (h : (readCommands rounds).run m = .ok cmds m') (hrounds : msgSize < m.index + rounds)
    (ht : m'.touched ≤ n) : m.touched ≤ m'.touched ∧ m.Complete n := by
  induction rounds generalizing m cmds with
  | zero =>
    cases h
    exact ⟨Nat.le_refl _, .read (unread_of_lt hrounds)⟩
  | succ rounds ih =>
    rcases readCommands_ok h with ⟨hu, _⟩ | ⟨hu, cmd, rest, m₁, h₁, h₂, _⟩
    · rw [readCommands_of_read hu] at h
      cases h
      exact ⟨Nat.le_refl _, .read hu⟩
    · have hlt := readCommand_index_lt h₁
      obtain ⟨hle, hrest⟩ := ih h₂ (by omega)
      obtain ⟨_, ⟨f, _, rfl, _⟩, hs, rfl⟩ := (decodes_command m cmd m₁).mp h₁
      have htouched : (m.advance f.wire.length).touched =
          max m.touched (m.index + f.wire.length) := by
        unfold MsgBuffer.advance
        rw [if_neg f.wire_length_pos.ne']
      exact ⟨by omega, .command hu f hs (by omega) hrest⟩

private theorem decryptMessage_error {c : Crypto} {q2 : Fin N} {e : Fault} {w w' : World N}
    (h : (decryptMessage c q2).run w = .error e w') : w'.msg = w.msg := by
  have hserver : (server q2).run w = .ok (w.servers q2) w := rfl
  unfold decryptMessage at h
  rw [run_bind_of_ok hserver] at h
  cases hs : (w.servers q2).secure with
  | false =>
    rw [hs] at h
    cases h
  | true =>
    rw [hs] at h
    have hlook : (look World.msg).run w = .ok w.msg w := rfl
    have hdecrypt : Keeps World.msg (symmetricDecrypt c q2 w.msg : M N (List UInt8)) := by
      apply keeps_bind (fun _ ↦ rfl)
      intro s
      cases s.connection.dCtx with
      | none => exact keeps_throw _
      | some d => exact keeps_bind (fun _ ↦ rfl) fun _ ↦ keeps_ite (keeps_pure _) (keeps_pure _)
    have hrun := (run_bind_of_ok hlook).symm.trans h
    cases hd : (symmetricDecrypt c q2 w.msg).run w with
    | ok plain w₁ =>
      rw [run_bind_of_ok hd] at hrun
      cases hrun
    | error e₁ w₁ =>
      rw [run_bind_of_error hd] at hrun
      cases hrun
      have hk := hdecrypt w
      rwa [final_of_error hd] at hk

/-- No outcome of `ParseMessage` has left a message whose plain text is complete commands. -/
theorem parseMessage_touched_le {c : Crypto} {q2 : Fin N} {n : Nat} {w : World N}
    (hm : ((w.servers q2).plainMessage c w.msg).Complete n) (hl : w.msg.length ≤ n)
    (ht : w.msg.touched ≤ n) : (final (parseMessage c q2) w).msg.touched ≤ n := by
  have hplain : ((w.servers q2).plainMessage c w.msg).touched ≤ n := by
    unfold Q2Server.plainMessage MsgBuffer.decrypted
    split
    · change max w.msg.touched (if w.msg.length ≤ msgSize then w.msg.length else 0) ≤ n
      split <;> omega
    · exact ht
  unfold parseMessage
  cases hd : (decryptMessage c q2).run w with
  | ok u w₁ =>
    obtain ⟨_, rfl⟩ := decryptMessage_ok hd
    rw [final_bind_of_ok hd]
    exact parseLoop_touched_le c q2 parseRounds hm hplain
  | error e w₁ =>
    rw [final_bind_of_error hd, decryptMessage_error hd]
    exact ht

/-- A message on which `ParseMessage` returns without having left its first `n` bytes. -/
theorem parseMessage_complete {c : Crypto} {q2 : Fin N} {n : Nat} {w w' : World N}
    (h : (parseMessage c q2).run w = .ok () w') (ht : w'.msg.touched ≤ n) :
    ((w.servers q2).plainMessage c w.msg).touched ≤ w'.msg.touched ∧
      ((w.servers q2).plainMessage c w.msg).Complete n := by
  obtain ⟨_, cmds, m, hread, hexec⟩ := parseMessage_ok h
  have hmsg : w'.msg = m :=
    (detached_forM fun cmd ↦ detached_exec c q2 cmd).blind.keeps.ok hexec
  rw [hmsg] at ht ⊢
  exact readCommands_complete hread (by unfold parseRounds; omega) ht

end Q2Admin
