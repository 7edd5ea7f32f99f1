import Q2Admin.Command.Frame
import Q2Admin.Command.Table
import Q2Admin.Loop.PollTable

/-!
# Segmentation of the stream

Library `Q2Admin.Loop`. Every `recv` fills a cleared buffer, so a command that is split
between two of them is lost. Chunks that end where commands end are processed one by one
as they would be all at once, as long as only the last of them closes the connection.
-/

namespace Q2Admin

open Exec

variable {N : Nat}

/-- The states differ in the message in the buffer and in events other than sending. -/
def Alike (w w' : World N) : Prop :=
  w'.sends = w.sends ∧ ∃ m t, w' = { w with msg := m, trace := t }

private theorem Alike.refl (w : World N) : Alike w w := ⟨rfl, w.msg, w.trace, rfl⟩

private theorem Alike.symm {w w' : World N} (h : Alike w w') : Alike w' w := by
  rcases h with ⟨hs, m, t, rfl⟩
  exact ⟨hs.symm, w.msg, w.trace, rfl⟩

private theorem Alike.trans {w w₁ w₂ : World N} (h : Alike w w₁) (h' : Alike w₁ w₂) :
    Alike w w₂ := by
  rcases h with ⟨hs, m, t, rfl⟩
  rcases h' with ⟨hs', m', t', rfl⟩
  exact ⟨hs'.trans hs, m', t', rfl⟩

private theorem alike_run {x : M N Unit} (hx : Detached x) {w w' w₁ : World N} (h : Alike w w')
    (hrun : x.run w = .ok () w₁) : ∃ w₂, x.run w' = .ok () w₂ ∧ Alike w₁ w₂ := by
  rcases h with ⟨hs, m, t, rfl⟩
  have hshift : Shifted m w.trace t w { w with msg := m, trace := t } := ⟨[], rfl, rfl⟩
  obtain ⟨w₂, hrun', e, he, rfl⟩ := (hx m w.trace t).ok hshift hrun
  refine ⟨_, hrun', ?_, m, e ++ t, rfl⟩
  unfold World.sends at hs ⊢
  rw [he, List.filter_append, List.filter_append]
  exact congrArg _ hs

/-- From the state, one program returns if the other does, and they end in states that are
alike. -/
def Interchangeable (x y : M N Unit) (w : World N) : Prop :=
  (∀ w₁, x.run w = .ok () w₁ → ∃ w₂, y.run w = .ok () w₂ ∧ Alike w₁ w₂) ∧
  ∀ w₂, y.run w = .ok () w₂ → ∃ w₁, x.run w = .ok () w₁ ∧ Alike w₁ w₂

private theorem Interchangeable.symm {x y : M N Unit} {w : World N}
    (h : Interchangeable x y w) : Interchangeable y x w := by
  refine ⟨fun w₁ h₁ ↦ ?_, fun w₂ h₂ ↦ ?_⟩
  · obtain ⟨w₂, h₂, ha⟩ := h.2 w₁ h₁
    exact ⟨w₂, h₂, ha.symm⟩
  · obtain ⟨w₁, h₁, ha⟩ := h.1 w₂ h₂
    exact ⟨w₁, h₁, ha.symm⟩

private theorem Interchangeable.trans {x y z : M N Unit} {w : World N}
    (h : Interchangeable x y w) (h' : Interchangeable y z w) : Interchangeable x z w := by
  refine ⟨fun w₁ h₁ ↦ ?_, fun w₂ h₂ ↦ ?_⟩
  · obtain ⟨v, hv, ha⟩ := h.1 w₁ h₁
    obtain ⟨w₂, h₂, ha'⟩ := h'.1 v hv
    exact ⟨w₂, h₂, ha.trans ha'⟩
  · obtain ⟨v, hv, ha⟩ := h'.2 w₂ h₂
    obtain ⟨w₁, h₁, ha'⟩ := h.2 v hv
    exact ⟨w₁, h₁, ha'.trans ha⟩

-- Programs in sequence, the second of which sees how the stream was cut only on one side.
private theorem interchangeable_bind {x y x' y' : M N Unit} {w : World N}
    (h : Interchangeable x y w) (hy : Detached y')
    (h' : ∀ w₁, x.run w = .ok () w₁ → Interchangeable x' y' w₁) :
    Interchangeable (x >>= fun _ ↦ x') (y >>= fun _ ↦ y') w := by
  refine ⟨fun v₁ hv₁ ↦ ?_, fun v₂ hv₂ ↦ ?_⟩
  · obtain ⟨_, w₁, h₁, hx'⟩ := run_bind_ok hv₁
    obtain ⟨w₂, h₂, ha⟩ := h.1 w₁ h₁
    obtain ⟨v, hv, hav⟩ := (h' w₁ h₁).1 v₁ hx'
    obtain ⟨v₂, hv₂, hav₂⟩ := alike_run hy ha hv
    exact ⟨v₂, by rw [run_bind_of_ok h₂, hv₂], hav.trans hav₂⟩
  · obtain ⟨_, w₂, h₂, hy'⟩ := run_bind_ok hv₂
    obtain ⟨w₁, h₁, ha⟩ := h.2 w₂ h₂
    obtain ⟨v, hv, hav⟩ := alike_run hy ha.symm hy'
    obtain ⟨v₁, hv₁, hav₁⟩ := (h' w₁ h₁).2 v hv
    exact ⟨v₁, by rw [run_bind_of_ok h₁, hv₁], hav₁.trans hav.symm⟩

/-- What one `recv` returns when it ends where a command ends. -/
structure Chunk where
  frames : List Frame
  nonempty : frames ≠ []
  fits : ∀ f ∈ frames, f.Fits
  short : (framesWire frames).length ≤ msgSize

namespace Chunk

/-- The bytes received. -/
def packet (ch : Chunk) : Packet := ⟨framesWire ch.frames, ch.short⟩

/-- The commands in them. -/
def commands (ch : Chunk) : List Command := ch.frames.map Frame.command'

private theorem packet_ne_nil (ch : Chunk) : ch.packet.bytes ≠ [] := by
  intro h
  have hle := framesWire_length_le ch.frames
  have hpos := List.length_pos_iff.mpr ch.nonempty
  have hz : (framesWire ch.frames).length = 0 := congrArg List.length h
  omega

/-- The commands of a chunk are read from its bytes. -/
theorem read (ch : Chunk) : ∃ m,
    (readCommands parseRounds).run (.received ch.packet.bytes) = .ok ch.commands m := by
  have hstands : Stands (.received ch.packet.bytes) (framesWire ch.frames) :=
    stands_of_drop (ch.short.trans (Nat.le_add_right _ _)) (List.append_nil _).symm
  have hle := framesWire_length_le ch.frames
  have hrounds : ch.frames.length ≤ parseRounds := by
    have hshort := ch.short
    unfold parseRounds
    omega
  exact ⟨_, readCommands_frames ch.fits hrounds hstands (Nat.zero_add _) ch.short⟩

end Chunk

/-- Serve a slot whose socket has received these bytes. -/
def serveChunk (c : Crypto) (env : HelloEnv) (i : Nat) (p : Packet) : M N Unit :=
  serveClient c (.packet p) env i

private theorem detached_execAll (c : Crypto) (q2 : Fin N) (cmds : List Command) :
    Detached (forM cmds (exec c q2)) := detached_forM fun cmd ↦ detached_exec c q2 cmd

private theorem serveChunk_ok (c : Crypto) (env : HelloEnv) {i : Nat} {q2 : Fin N}
    {w : World N} (howner : w.getServer i = some q2)
    (henc : (w.servers q2).connection.encrypted = false) (ch : Chunk) :
    ∃ m, ∀ w', (serveChunk c env i ch.packet).run w = .ok () w' ↔
      (forM ch.commands (exec c q2)).run { w.receiving (.packet ch.packet) i with msg := m } =
        .ok () w' := by
  have hlen : (Recv.packet ch.packet).buffer.length ≠ 0 := fun h ↦
    ch.packet_ne_nil (List.length_eq_zero_iff.mp h)
  have hplain : (w.servers q2).secure = false := by
    unfold Q2Server.secure
    rw [henc, Bool.false_and]
  have hdec : (decryptMessage c q2).run (w.receiving (.packet ch.packet) i) =
      .ok () (w.receiving (.packet ch.packet) i) := decryptMessage_of_plain hplain
  obtain ⟨m, hread⟩ := ch.read
  refine ⟨m, fun w' ↦ ?_⟩
  unfold serveChunk
  rw [serveClient_run, if_neg hlen, howner]
  dsimp only
  unfold parseMessage
  rw [run_bind_of_ok hdec, parseLoop_splits c q2 parseRounds]
  constructor
  · rintro ⟨cmds, m', hr, hx⟩
    have hr' : (readCommands parseRounds).run (.received ch.packet.bytes) = .ok cmds m' := hr
    rw [hread] at hr'
    cases hr'
    exact hx
  · intro hx
    exact ⟨ch.commands, m, hread, hx⟩

private theorem serveChunk_interchangeable {c : Crypto} {env : HelloEnv} {i : Nat} {q2 : Fin N}
    {w : World N} (howner : w.getServer i = some q2)
    (henc : (w.servers q2).connection.encrypted = false) (ch : Chunk) :
    Interchangeable (serveChunk c env i ch.packet) (forM ch.commands (exec c q2)) w := by
  obtain ⟨m, hserve⟩ := serveChunk_ok c env howner henc ch
  have hstart : Alike w { w.receiving (.packet ch.packet) i with msg := m } :=
    ⟨List.filter_cons_of_neg Bool.false_ne_true, m, _, rfl⟩
  refine ⟨fun w₁ h₁ ↦ ?_, fun w₂ h₂ ↦ ?_⟩
  · obtain ⟨w₂, h₂, ha⟩ := alike_run (detached_execAll c q2 ch.commands) hstart.symm
      ((hserve w₁).mp h₁)
    exact ⟨w₂, h₂, ha⟩
  · obtain ⟨w₁, h₁, ha⟩ := alike_run (detached_execAll c q2 ch.commands) hstart h₂
    exact ⟨w₁, (hserve w₁).mpr h₁, ha.symm⟩

-- What a chunk without a closing command leaves: the server owns its slot, its traffic stays plain,
-- and an AUTH has the same answer.
private theorem open_after {c : Crypto} {q2 : Fin N} {cmds : List Command} {w w' : World N}
    (hopen : ∀ cmd ∈ cmds, cmd.sessionOp c (w.servers q2) ≠ some .close)
    (h : (forM cmds (exec c q2)).run w = .ok () w') :
    (∀ i, w'.getServer i = w.getServer i) ∧
      (w'.servers q2).connection.encrypted = (w.servers q2).connection.encrypted ∧
      (w'.servers q2).credentials = (w.servers q2).credentials := by
  have hlasting {ν : Type} {v : Q2Server → ν} (hv : ∀ s, v s.lasting = v s) :
      v (w'.servers q2) = v (w.servers q2) :=
    (keeps_forM fun cmd _ ↦ keeps_lasting_exec hv c q2 q2 cmd).ok h
  refine ⟨fun i ↦ ?_, hlasting (v := fun s ↦ s.connection.encrypted) fun _ ↦ rfl,
    hlasting (v := Q2Server.credentials) fun _ ↦ rfl⟩
  have hclose : SessionOp.close ∉ sessionOps c (w.servers q2) cmds := by
    intro hmem
    obtain ⟨cmd, hcmd, hop⟩ := List.mem_filterMap.mp hmem
    exact hopen cmd hcmd hop
  have hindex (s : Fin N) : (w'.servers s).index = (w.servers s).index := by
    have hinv := Core.applyAll_index w.core q2 hclose s
    rwa [← core_execAll h] at hinv
  unfold World.getServer
  simp only [hindex]

private theorem chunks_interchangeable (c : Crypto) (env : HelloEnv) {i : Nat} {q2 : Fin N}
    (chunks : List Chunk) {w : World N} (howner : w.getServer i = some q2)
    (henc : (w.servers q2).connection.encrypted = false)
    (hopen : ∀ ch ∈ chunks.dropLast, ∀ cmd ∈ ch.commands,
      cmd.sessionOp c (w.servers q2) ≠ some .close) :
    Interchangeable (forM chunks fun ch ↦ serveChunk c env i ch.packet)
      (forM (chunks.flatMap Chunk.commands) (exec c q2)) w := by
  induction chunks generalizing w with
  | nil =>
    exact ⟨fun w₁ h₁ ↦ ⟨w₁, h₁, .refl w₁⟩, fun w₂ h₂ ↦ ⟨w₂, h₂, .refl w₂⟩⟩
  | cons ch chunks ih =>
    rw [List.forM_cons, List.flatMap_cons, List.forM_append]
    refine interchangeable_bind (serveChunk_interchangeable howner henc ch)
      (detached_execAll c q2 _) fun w₁ h₁ ↦ ?_
    cases chunks with
    | nil => exact ⟨fun w₁ h₁ ↦ ⟨w₁, h₁, .refl w₁⟩, fun w₂ h₂ ↦ ⟨w₂, h₂, .refl w₂⟩⟩
    | cons ch' chunks =>
      rw [List.dropLast_cons_cons] at hopen
      obtain ⟨m, hserve⟩ := serveChunk_ok c env howner henc ch
      obtain ⟨hserver, hplain, hcred⟩ := open_after (w := { w.receiving (.packet ch.packet) i with
        msg := m }) (hopen ch List.mem_cons_self) ((hserve w₁).mp h₁)
      apply ih ((hserver i).trans howner) (hplain.trans henc)
      intro ch'' hch cmd hcmd
      rw [sessionOp_congr c hcred cmd]
      exact hopen ch'' (List.mem_cons_of_mem ch hch) cmd hcmd

/-- A stream of complete commands that is cut between commands is processed as if it had come
in one piece, as long as no chunk but the last closes the connection. -/
theorem segmentation_between_commands (c : Crypto) (env : HelloEnv) (i : Nat) (q2 : Fin N)
    (w : World N) (howner : w.getServer i = some q2)
    (henc : (w.servers q2).connection.encrypted = false) (chunks : List Chunk) (whole : Chunk)
    (hwhole : whole.frames = chunks.flatMap Chunk.frames)
    (hopen : ∀ ch ∈ chunks.dropLast, ∀ cmd ∈ ch.commands,
      cmd.sessionOp c (w.servers q2) ≠ some .close) :
    Interchangeable (forM chunks fun ch ↦ serveChunk c env i ch.packet)
      (serveChunk c env i whole.packet) w := by
  have hcmds : whole.commands = chunks.flatMap Chunk.commands := by
    unfold Chunk.commands
    rw [hwhole, List.map_flatMap]
  have hchunks := chunks_interchangeable c env chunks howner henc hopen
  rw [← hcmds] at hchunks
  exact hchunks.trans (serveChunk_interchangeable howner henc whole).symm

/-- The server tells the same about its game, is trusted and connected as before, and the same
has been sent. -/
structure SameService (q2 : Fin N) (w w' : World N) : Prop where
  table : (w'.servers q2).table = (w.servers q2).table
  trusted : (w'.servers q2).trusted = (w.servers q2).trusted
  connected : (w'.servers q2).connected = (w.servers q2).connected
  sends : w'.sends = w.sends

/-- However the bytes of the stream are cut, they are processed as in one piece. -/
def Seamless (c : Crypto) (i : Nat) (q2 : Fin N) (w : World N) (whole : Chunk)
    (ps : List Packet) : Prop :=
  ∀ (env : HelloEnv) (w₁ w₂ : World N), (forM ps (serveChunk c env i)).run w = .ok () w₁ →
    (serveChunk c env i whole.packet).run w = .ok () w₂ → SameService q2 w₁ w₂

private def sampleChunk : Chunk :=
  ⟨[.connect 0 ⟨110, [], List.not_mem_nil⟩], by decide, by decide, by decide⟩

-- The bytes of a CONNECT, cut in the middle of it.
private def sampleHalves : List Packet :=
  [⟨[ClientCmd.connect.byte, 0], by decide⟩, ⟨[110, 0], by decide⟩]

-- Both programs return, in worlds that pass the test.
private def bothReturn (x y : M 1 Unit) (test : World 1 → World 1 → Bool) (w : World 1) : Bool :=
  match x.run w, y.run w with
  | .ok _ w₁, .ok _ w₂ => test w₁ w₂
  | _, _ => false

private theorem exists_of_bothReturn {x y : M 1 Unit} {test : World 1 → World 1 → Bool}
    {w : World 1} (h : bothReturn x y test w = true) :
    ∃ w₁ w₂, x.run w = .ok () w₁ ∧ y.run w = .ok () w₂ ∧ test w₁ w₂ = true := by
  unfold bothReturn at h
  split at h
  · next _ w₁ _ w₂ h₁ h₂ => exact ⟨w₁, w₂, h₁, h₂, h⟩
  · cases h

/-- Two messages with a CONNECT each are served like one with both. -/
theorem segmentation_between_commands_sample :
    ∃ w : World 1, (w.servers 0).connected = true ∧
      Interchangeable (forM [sampleChunk, sampleChunk] fun ch ↦
          serveChunk Crypto.clear (Answer.sample none .failed).hello 1 ch.packet)
        (serveChunk Crypto.clear (Answer.sample none .failed).hello 1
          ⟨framesWire (sampleChunk.frames ++ sampleChunk.frames), by decide⟩) w := by
  have h : (follow (step Crypto.clear) Unguarded sampleBound sampleStart).any (fun w ↦
      w.getServer 1 == some 0 && (w.servers 0).connected &&
        !(w.servers 0).connection.encrypted) = true := by decide +kernel
  obtain ⟨w, hrun, hw⟩ := Run.exists_of_follow h
  simp only [Bool.and_eq_true, beq_iff_eq, Bool.not_eq_true'] at hw
  rcases hw with ⟨⟨howner, hc⟩, henc⟩
  refine ⟨w, hc, segmentation_between_commands Crypto.clear _ 1 0 w howner henc
    [sampleChunk, sampleChunk] ⟨sampleChunk.frames ++ sampleChunk.frames, by decide, by decide,
      by decide⟩ rfl fun ch hch cmd hcmd ↦ ?_⟩
  rw [List.mem_singleton.mp hch] at hcmd
  rw [List.mem_singleton.mp hcmd]
  exact fun h ↦ by cases h

/-- A CONNECT that is cut loses the rest of its userinfo. -/
theorem segmentation_matters :
    ¬ ∀ (ms : List Move) (w : World 1), Run (step Crypto.clear) Unguarded ms sampleStart w →
      ∀ (i : Nat) (q2 : Fin 1), w.getServer i = some q2 → (w.servers q2).connected = true →
        (w.servers q2).connection.encrypted = false →
        ∀ (whole : Chunk) (ps : List Packet), (∀ p ∈ ps, p.bytes ≠ []) →
          ps.flatMap Packet.bytes = whole.packet.bytes →
          Seamless Crypto.clear i q2 w whole ps := by
  let env := (Answer.sample none .failed).hello
  have h : (follow (step Crypto.clear) Unguarded sampleBound sampleStart).any (fun w ↦
      w.getServer 1 == some 0 && (w.servers 0).connected &&
        !(w.servers 0).connection.encrypted &&
        bothReturn (forM sampleHalves (serveChunk Crypto.clear env 1))
          (serveChunk Crypto.clear env 1 sampleChunk.packet) (fun w₁ w₂ ↦
            ((w₁.servers 0).players 0).userinfo != ((w₂.servers 0).players 0).userinfo) w) =
      true := by decide +kernel
  obtain ⟨w, hrun, hw⟩ := Run.exists_of_follow h
  simp only [Bool.and_eq_true, beq_iff_eq, Bool.not_eq_true'] at hw
  rcases hw with ⟨⟨⟨howner, hc⟩, henc⟩, hboth⟩
  obtain ⟨w₁, w₂, h₁, h₂, hne⟩ := exists_of_bothReturn hboth
  intro hall
  have hsame := hall _ w hrun 1 0 howner hc henc sampleChunk sampleHalves (by decide) (by decide)
    env w₁ w₂ h₁ h₂
  have hplayer : (w₂.servers 0).players 0 = (w₁.servers 0).players 0 :=
    congrArg (fun t ↦ Table.players t 0) hsame.table
  rw [hplayer] at hne
  exact absurd rfl (bne_iff_ne.mp hne)

/-- The commands behind a QUIT are executed only if they came with it. -/
theorem segmentation_behind_quit :
    ¬ ∀ (ms : List Move) (w : World 1), Run (step Crypto.clear) Unguarded ms sampleStart w →
      ∀ (i : Nat) (q2 : Fin 1), w.getServer i = some q2 → (w.servers q2).connected = true →
        (w.servers q2).connection.encrypted = false →
        ∀ (whole : Chunk) (chunks : List Chunk), whole.frames = chunks.flatMap Chunk.frames →
          Seamless Crypto.clear i q2 w whole (chunks.map Chunk.packet) := by
  let env := (Answer.sample none .failed).hello
  let quit : Chunk := ⟨[.quit], by decide, by decide, by decide⟩
  let whole : Chunk := ⟨.quit :: sampleChunk.frames, by decide, by decide, by decide⟩
  have h : (follow (step Crypto.clear) Unguarded sampleBound sampleStart).any (fun w ↦
      w.getServer 1 == some 0 && (w.servers 0).connected &&
        !(w.servers 0).connection.encrypted &&
        bothReturn (forM ([quit, sampleChunk].map Chunk.packet) (serveChunk Crypto.clear env 1))
          (serveChunk Crypto.clear env 1 whole.packet) (fun w₁ w₂ ↦
            (w₁.servers 0).playercount != (w₂.servers 0).playercount) w) = true := by
    decide +kernel
  obtain ⟨w, hrun, hw⟩ := Run.exists_of_follow h
  simp only [Bool.and_eq_true, beq_iff_eq, Bool.not_eq_true'] at hw
  rcases hw with ⟨⟨⟨howner, hc⟩, henc⟩, hboth⟩
  obtain ⟨w₁, w₂, h₁, h₂, hne⟩ := exists_of_bothReturn hboth
  intro hall
  have hsame := hall _ w hrun 1 0 howner hc henc whole [quit, sampleChunk] rfl env w₁ w₂ h₁ h₂
  have hcount : (w₂.servers 0).playercount = (w₁.servers 0).playercount :=
    congrArg Table.playercount hsame.table
  rw [hcount] at hne
  exact absurd rfl (bne_iff_ne.mp hne)

end Q2Admin
