import Q2Admin.Command.Bounds
import Q2Admin.Loop.PollTable

/-!
# Reads behind the end of a message

Library `Q2Admin.Loop`. The readers never ask how long the message is. What is fetched
stays inside the bytes received exactly if these are a complete first message, or complete
commands, or one followed by the other.
-/

namespace Q2Admin

open Exec

variable {N : Nat}

/-- The fields of a HELLO. -/
def Hello.wire (h : Hello) : List UInt8 :=
  longBytes h.key ++ (longBytes h.version ++ (shortBytes h.port ++
    ([h.maxClients] ++ ([h.encrypted] ++ h.challenge.bytes))))

private theorem decodes_hello : Decodes parseHello (fun e h ↦ e = h.wire) := by
  refine decodes_congr (decodes_bind decodes_long fun key ↦ decodes_bind decodes_long fun version ↦
    decodes_bind decodes_short fun port ↦ decodes_bind decodes_byte fun maxClients ↦
      decodes_bind decodes_byte fun encrypted ↦
        decodes_map (Hello.mk key version port maxClients encrypted) (decodes_data challengeLen))
    fun e h ↦ ?_
  constructor
  · rintro ⟨_, _, key, rfl, rfl, _, _, version, rfl, rfl, _, _, port, rfl, rfl, _, _, maxClients,
      rfl, rfl, _, _, encrypted, rfl, rfl, challenge, rfl, rfl⟩
    rfl
  · rintro rfl
    exact ⟨_, _, h.key, rfl, rfl, _, _, h.version, rfl, rfl, _, _, h.port, rfl, rfl, _, _,
      h.maxClients, rfl, rfl, _, _, h.encrypted, rfl, rfl, h.challenge, rfl, rfl⟩

/-- The bytes that tell whom a first message is from. -/
inductive FirstWire : List UInt8 → First → Prop
  | peer (request : UInt8) : FirstWire (longBytes magicPeer ++ [request]) (.peer request)
  /-- Neither a peer nor a game server. -/
  | other (magic : UInt32) (peer : magic ≠ magicPeer) (client : magic ≠ magicClient) :
      FirstWire (longBytes magic) .stranger
  /-- A game server that does not say HELLO. -/
  | silent (cmd : UInt8) (hello : cmd ≠ ClientCmd.hello.byte) :
      FirstWire (longBytes magicClient ++ [cmd]) .stranger
  | hello (h : Hello) :
      FirstWire (longBytes magicClient ++ ([ClientCmd.hello.byte] ++ h.wire)) (.hello h)

private theorem FirstWire.reads {e : List UInt8} {first : First} (h : FirstWire e first) :
    Reads readFirst e first := by
  have hne : magicClient ≠ magicPeer := by decide
  have hstranger : Reads (pure First.stranger) [] .stranger := (decodes_pure _).reads ⟨rfl, rfl⟩
  cases h with
  | peer request =>
    apply reads_bind (reads_long magicPeer)
    rw [if_pos rfl]
    exact reads_map First.peer (reads_byte request)
  | other magic peer client =>
    rw [← List.append_nil (longBytes magic)]
    apply reads_bind (reads_long magic)
    rw [if_neg peer, if_pos client]
    exact hstranger
  | silent cmd hello =>
    apply reads_bind (reads_long magicClient)
    rw [if_neg hne, if_neg (not_not_intro rfl), ← List.append_nil [cmd]]
    apply reads_bind (reads_byte cmd)
    rw [if_pos hello]
    exact hstranger
  | hello h =>
    apply reads_bind (reads_long magicClient)
    rw [if_neg hne, if_neg (not_not_intro rfl)]
    apply reads_bind (reads_byte _)
    rw [if_neg (not_not_intro rfl)]
    exact reads_map First.hello (decodes_hello.reads rfl)

private theorem firstWire_of_run {first : First} {m m' : MsgBuffer}
    (h : readFirst.run m = .ok first m') :
    ∃ e, FirstWire e first ∧ Stands m e ∧ m' = m.advance e.length := by
  obtain ⟨magic, m₁, h₁, h⟩ := run_bind_ok h
  obtain ⟨_, rfl, hs₁, rfl⟩ := (decodes_long m magic m₁).mp h₁
  by_cases hp : magic = magicPeer
  · rw [if_pos hp] at h
    obtain ⟨_, ⟨request, rfl, rfl⟩, hs, rfl⟩ := (decodes_map First.peer decodes_byte _ _ _).mp h
    refine ⟨longBytes magic ++ [request], hp ▸ .peer request, stands_append.mpr ⟨hs₁, hs⟩, ?_⟩
    rw [m.advance_advance, List.length_append]
  rw [if_neg hp] at h
  by_cases hc : magic ≠ magicClient
  · rw [if_pos hc] at h
    cases h
    exact ⟨_, .other magic hp hc, hs₁, rfl⟩
  rw [if_neg hc] at h
  rw [ne_eq, not_not] at hc
  obtain ⟨cmd, m₂, h₂, h⟩ := run_bind_ok h
  obtain ⟨_, rfl, hs₂, rfl⟩ := (decodes_byte _ cmd m₂).mp h₂
  by_cases hh : cmd ≠ ClientCmd.hello.byte
  · rw [if_pos hh] at h
    cases h
    refine ⟨longBytes magic ++ [cmd], hc ▸ .silent cmd hh, stands_append.mpr ⟨hs₁, hs₂⟩, ?_⟩
    rw [m.advance_advance, List.length_append]
  · rw [if_neg hh] at h
    rw [ne_eq, not_not] at hh
    obtain ⟨_, ⟨hello, rfl, rfl⟩, hs₃, rfl⟩ := (decodes_map First.hello decodes_hello _ _ _).mp h
    refine ⟨longBytes magic ++ ([cmd] ++ hello.wire), ?_,
      stands_append.mpr ⟨hs₁, stands_append.mpr ⟨hs₂, hs₃⟩⟩, ?_⟩
    · rw [hc, hh]
      exact .hello hello
    · rw [m.advance_advance, m.advance_advance, List.length_append, List.length_append,
        Nat.add_assoc]

/-- First messages are told apart by their wire form. -/
theorem decodes_first : Decodes readFirst FirstWire := by
  intro m first m'
  constructor
  · exact firstWire_of_run
  · rintro ⟨e, he, hs, rfl⟩
    exact he.reads m hs

/-- The message is complete: it consists of commands if it is for the owner of the slot; else
it begins with a complete first message, behind which come commands if that is a HELLO which
is answered. Deciphered text counts up to the length of the message, padded with zeros. -/
def World.CompleteMessage (c : Crypto) (w : World N) (env : HelloEnv) (i : Nat)
    (bs : List UInt8) : Prop :=
  match w.getServer i with
  | some q2 => ((w.servers q2).plainMessage c (.received bs)).Complete bs.length
  | none => ∃ e first, FirstWire e first ∧ e <+: bs ∧
      ∀ h, first = .hello h → ∀ q2, w.serverOfKey h.key = some q2 →
        env.answers h.challenge = true →
        (((w.servers q2).greeted env h).plainMessage c
          ((MsgBuffer.received bs).advance e.length)).Complete bs.length

private theorem stands_received {bs e : List UInt8} (hbs : bs.length ≤ msgSize) :
    e <+: bs ↔ Stands (.received bs) e ∧ e.length ≤ bs.length := by
  have hspace : bs.length ≤ msgSpace := by
    unfold msgSpace
    omega
  constructor
  · rintro ⟨post, hpost⟩
    refine ⟨stands_of_drop hspace hpost.symm, ?_⟩
    rw [← hpost, List.length_append]
    exact Nat.le_add_right _ _
  · rintro ⟨hs, hle⟩
    have hdrop := MsgBuffer.drop_of_slice (m := .received bs) (n := e.length)
      (by rw [show (MsgBuffer.received bs).index = 0 from rfl, Nat.zero_add]; exact hle)
    rw [hs.1] at hdrop
    exact ⟨_, hdrop.symm⟩

private theorem keeps_msg_turnAway (i : Nat) : Keeps World.msg (turnAway i : M N Unit) :=
  keeps_bind (fun _ ↦ rfl) fun _ ↦ keeps_bind (fun _ ↦ rfl) fun _ ↦
    detached_removeServerSocket.blind.keeps

private theorem keeps_msg_answerPeer (c : Crypto) (i : Nat) (request : UInt8) :
    Keeps World.msg (answerPeer c i request : M N Unit) := by
  refine keeps_ite (keeps_bind keeps_get fun w ↦ ?_) (keeps_pure _)
  dsimp only
  split
  · exact keeps_throw _
  · exact keeps_bind (fun _ ↦ rfl) fun _ ↦ fun _ ↦ rfl

-- What the server that said HELLO is known as when the rest of its message is parsed.
private theorem plainMessage_greeted {c : Crypto} {env : HelloEnv} {i : Nat} {h : Hello}
    {q2 : Fin N} {w w' : World N} (hr : (registerHello c env i h).run w = .ok (some q2) w') :
    w'.msg = w.msg ∧ w.serverOfKey h.key = some q2 ∧ env.answers h.challenge = true ∧
      (w'.servers q2).plainMessage c w'.msg =
        ((w.servers q2).greeted env h).plainMessage c w.msg := by
  obtain ⟨hmsg, hreg⟩ := seen_registerHello hr
  cases hk : w.serverOfKey h.key with
  | none =>
    rw [hk] at hreg
    cases hreg.1
  | some q =>
    rw [hk] at hreg
    rcases hreg with ⟨hfound, _, hrec⟩
    cases ha : env.answers h.challenge with
    | false =>
      rw [ha] at hfound
      cases hfound
    | true =>
      rw [ha] at hfound
      cases hfound
      exact ⟨hmsg, rfl, rfl, by rw [plainMessage_congr c (hrec ha), hmsg]⟩

private theorem actFirst_touched_le {c : Crypto} {env : HelloEnv} {i n : Nat} {first : First}
    {w : World N} (hl : w.msg.length ≤ n) (ht : w.msg.touched ≤ n)
    (hrest : ∀ h, first = .hello h → ∀ q2, w.serverOfKey h.key = some q2 →
      env.answers h.challenge = true →
      (((w.servers q2).greeted env h).plainMessage c w.msg).Complete n) :
    (final (actFirst c env i first) w).msg.touched ≤ n := by
  cases first with
  | peer request =>
    have hk := keeps_bind (keeps_msg_answerPeer c i request) (fun _ ↦
      detached_removeServerSocket.blind.keeps) w
    exact hk ▸ ht
  | stranger => exact keeps_msg_turnAway (N := N) i w ▸ ht
  | hello h =>
    unfold actFirst
    cases hr : (registerHello c env i h).run w with
    | error e w' =>
      rw [final_bind_of_error hr]
      have hk : (final (registerHello c env i h) w).msg = w.msg :=
        (detached_registerHello c env i h).blind.keeps w
      rw [final_of_error hr] at hk
      exact hk ▸ ht
    | ok found w' =>
      rw [final_bind_of_ok hr]
      cases found with
      | none =>
        have hk : w'.msg = w.msg := (seen_registerHello hr).1
        exact (keeps_msg_turnAway i w').trans hk ▸ ht
      | some q2 =>
        obtain ⟨hmsg, hkey, hans, hplain⟩ := plainMessage_greeted hr
        refine parseMessage_touched_le ?_ (by rwa [hmsg]) (by rwa [hmsg])
        rw [hplain]
        exact hrest h rfl q2 hkey hans

private theorem final_serveClient {c : Crypto} {env : HelloEnv} {i : Nat} {w : World N}
    {p : Packet} (hp : p.bytes ≠ []) :
    final (serveClient c (.packet p) env i) w =
      final (match w.getServer i with
        | some q2 => parseMessage c q2
        | none => firstMessage c env i) (w.receiving (.packet p) i) := by
  have hl : (Recv.packet p).buffer.length ≠ 0 := fun h ↦ hp (List.length_eq_zero_iff.mp h)
  have hrun := serveClient_run c (.packet p) env i w
  rw [if_neg hl] at hrun
  exact final_congr hrun

private theorem touched_le_of_complete {c : Crypto} {env : HelloEnv} {i : Nat} {w : World N}
    {p : Packet} (hp : p.bytes ≠ []) (h : w.CompleteMessage c env i p.bytes) :
    (final (serveClient c (.packet p) env i) w).msg.touched ≤ p.bytes.length := by
  rw [final_serveClient hp]
  unfold World.CompleteMessage at h
  cases ho : w.getServer i with
  | some q2 =>
    rw [ho] at h
    exact parseMessage_touched_le h (Nat.le_refl _) (Nat.zero_le _)
  | none =>
    rw [ho] at h
    rcases h with ⟨e, first, he, hpre, hrest⟩
    obtain ⟨hs, hle⟩ := (stands_received p.length_le).mp hpre
    have hread : (onMsg readFirst).run (w.receiving (.packet p) i) =
        .ok first (inMsg.set ((MsgBuffer.received p.bytes).advance e.length)
          (w.receiving (.packet p) i)) := run_zoom_of_ok (he.reads _ hs)
    have hadv := (MsgBuffer.received p.bytes).advance_touched_le e.length
    dsimp only
    rw [firstMessage_eq, final_bind_of_ok hread]
    refine actFirst_touched_le ?_ ?_ hrest
    · change ((MsgBuffer.received p.bytes).advance e.length).length ≤ _
      rw [MsgBuffer.advance_length]
      exact Nat.le_refl _
    · change ((MsgBuffer.received p.bytes).advance e.length).touched ≤ _
      refine hadv.trans (Nat.max_le.mpr ⟨Nat.zero_le _, ?_⟩)
      rw [show (MsgBuffer.received p.bytes).index = 0 from rfl, Nat.zero_add]
      exact hle

private theorem touched_le_plainMessage (c : Crypto) (s : Q2Server) (m : MsgBuffer) :
    m.touched ≤ (s.plainMessage c m).touched := by
  unfold Q2Server.plainMessage
  split
  · exact Nat.le_max_left _ _
  · exact Nat.le_refl _

-- What was fetched of a first message stays fetched, and the rest of a HELLO was complete.
private theorem actFirst_complete {c : Crypto} {env : HelloEnv} {i n : Nat} {first : First}
    {w w' : World N} (hrun : (actFirst c env i first).run w = .ok () w')
    (ht : w'.msg.touched ≤ n) :
    w.msg.touched ≤ w'.msg.touched ∧ ∀ h, first = .hello h → ∀ q2,
      w.serverOfKey h.key = some q2 → env.answers h.challenge = true →
      (((w.servers q2).greeted env h).plainMessage c w.msg).Complete n := by
  cases first with
  | peer request =>
    have hk : w'.msg = w.msg := (keeps_bind (keeps_msg_answerPeer c i request) fun _ ↦
      detached_removeServerSocket.blind.keeps).ok hrun
    exact ⟨by rw [hk], fun _ hf ↦ by cases hf⟩
  | stranger =>
    have hk : w'.msg = w.msg := (keeps_msg_turnAway i).ok hrun
    exact ⟨by rw [hk], fun _ hf ↦ by cases hf⟩
  | hello h =>
    obtain ⟨found, w₁, h₁, h₂⟩ := run_bind_ok hrun
    cases found with
    | none =>
      have hk : w'.msg = w₁.msg := (keeps_msg_turnAway i).ok h₂
      obtain ⟨hmsg, hreg⟩ := seen_registerHello h₁
      refine ⟨by rw [hk, hmsg], fun h' hf q2 hkey hans ↦ ?_⟩
      cases hf
      rw [hkey, hans] at hreg
      cases hreg.1
    | some q2 =>
      obtain ⟨_, hkey, _, hplain⟩ := plainMessage_greeted h₁
      obtain ⟨hle, hcomplete⟩ := parseMessage_complete h₂ ht
      rw [hplain] at hle hcomplete
      refine ⟨(touched_le_plainMessage c _ w.msg).trans hle, fun h' hf q hq _ ↦ ?_⟩
      cases hf
      cases hkey.symm.trans hq
      exact hcomplete

private theorem complete_of_touched_le {c : Crypto} {env : HelloEnv} {i : Nat} {w w' : World N}
    {p : Packet} (hrun : (serveClient c (.packet p) env i).run w = .ok () w')
    (hp : p.bytes ≠ []) (ht : w'.msg.touched ≤ p.bytes.length) :
    w.CompleteMessage c env i p.bytes := by
  unfold World.CompleteMessage
  cases serveClient_ok hrun with
  | hangUp q2 owner ended run => exact absurd (List.length_eq_zero_iff.mp ended) hp
  | message q2 owner some run =>
    rw [owner]
    exact (parseMessage_complete run ht).2
  | first owner first m read run =>
    rw [owner]
    obtain ⟨e, he, hs, rfl⟩ := (decodes_first _ first m).mp read
    obtain ⟨hle, hrest⟩ := actFirst_complete run ht
    refine ⟨e, first, he, (stands_received p.length_le).mpr ⟨hs, ?_⟩, hrest⟩
    by_cases hz : e.length = 0
    · omega
    · have hadv : ((MsgBuffer.received p.bytes).advance e.length).touched =
          max 0 (0 + e.length) := by
        unfold MsgBuffer.advance
        rw [if_neg hz]
        rfl
      have hle' : ((MsgBuffer.received p.bytes).advance e.length).touched ≤ p.bytes.length :=
        hle.trans ht
      omega

/-- While a complete message is served, no byte behind it is fetched, whatever comes of it;
and no other message is served to its end without such a fetch. -/
theorem reads_inside_iff (c : Crypto) (w : World N) (env : HelloEnv) (i : Nat) (p : Packet)
    (hp : p.bytes ≠ []) :
    (w.CompleteMessage c env i p.bytes →
      (final (serveClient c (.packet p) env i) w).msg.touched ≤ p.bytes.length) ∧
    ∀ w', (serveClient c (.packet p) env i).run w = .ok () w' →
      w'.msg.touched ≤ p.bytes.length → w.CompleteMessage c env i p.bytes :=
  ⟨touched_le_of_complete hp, fun _ hrun ↦ complete_of_touched_le hrun hp⟩

/-- The HELLO of the sample is read inside the message. -/
theorem reads_inside_sample :
    (final (serveClient Crypto.clear (.packet ⟨sampleHello, sampleHello_length_le⟩)
      (Answer.sample none .failed).hello 1) sampleStart).msg.touched ≤ sampleHello.length := by
  refine (reads_inside_iff Crypto.clear sampleStart _ 1 ⟨sampleHello, sampleHello_length_le⟩
    (by decide)).1 ?_
  refine ⟨sampleHello, _, .hello ⟨5, 1, 27910, 8, 0, ⟨List.replicate 16 1, rfl⟩⟩, ⟨[], rfl⟩, ?_⟩
  intro h hf q2 _ _
  cases hf
  exact .read (by rw [Subsingleton.elim q2 0]; decide +kernel)

/-- A single byte asks for a level and a text, which are fetched from behind it. -/
theorem reads_behind_message :
    ¬ ∀ (ms : List Move) (w : World 1), Run (step Crypto.clear) Unguarded ms sampleStart w →
      ∀ (env : HelloEnv) (i : Nat) (p : Packet), p.bytes ≠ [] →
        (final (serveClient Crypto.clear (.packet p) env i) w).msg.touched ≤ p.bytes.length := by
  let p : Packet := ⟨[ClientCmd.print.byte], by decide⟩
  have h : (follow (step Crypto.clear) Unguarded sampleBound sampleStart).any (fun w ↦
      (final (serveClient Crypto.clear (.packet p) (Answer.sample none .failed).hello 1)
        w).msg.touched == 4) = true := by decide +kernel
  obtain ⟨w, hrun, hw⟩ := Run.exists_of_follow h
  intro hall
  have hle := hall _ w hrun (Answer.sample none .failed).hello 1 p (List.cons_ne_nil _ _)
  rw [beq_iff_eq.mp hw] at hle
  exact absurd hle (by decide)

end Q2Admin
