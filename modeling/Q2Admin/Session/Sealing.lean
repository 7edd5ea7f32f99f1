import Q2Admin.Session.Footprint

/-!
# The form of messages

Library `Q2Admin.Session`. The messages that a command sends, with the server that each is for.
`exec_posts` says that every one of them is in the form that the record of its server asks for
behind the command: no command sends anything before the check of an AUTH.
-/

namespace Q2Admin

open Exec

variable {N : Nat} {c : Crypto} {q2 : Fin N} {w w' : World N}

/-- What decides about the form of the messages to a server. -/
structure Sealing where
  encrypted : Bool
  trusted : Bool
  aeskey : Field 16
  iv : Field 16

/-- What the record of a server says about it. -/
def Q2Server.sealing (s : Q2Server) : Sealing :=
  ⟨s.connection.encrypted, s.trusted, s.connection.aeskey, s.connection.iv⟩

private theorem wire_congr (c : Crypto) {s s' : Q2Server} (h : s.sealing = s'.sealing)
    (plain : List UInt8) : s.wire c plain = s'.wire c plain := by
  have he : s.connection.encrypted = s'.connection.encrypted := congrArg Sealing.encrypted h
  have ht : s.trusted = s'.trusted := congrArg Sealing.trusted h
  have hk : s.connection.aeskey = s'.connection.aeskey := congrArg Sealing.aeskey h
  have hi : s.connection.iv = s'.connection.iv := congrArg Sealing.iv h
  unfold Q2Server.wire Q2Server.secure
  rw [he, ht, hk, hi]

/-- A message for a server, and what goes on the wire for it. -/
structure Post (N : Nat) where
  receiver : Fin N
  plain : List UInt8
  wire : List UInt8

/-- The calls of `send` for messages to the sockets in the slots of their servers, newest
first. -/
def World.mailing (w : World N) (posts : List (Post N)) : List Event :=
  (posts.map fun p ↦ .sent (w.wireOf p.receiver) p.plain p.wire).reverse

private theorem World.mailing_append (w : World N) (posts posts' : List (Post N)) :
    w.mailing (posts ++ posts') = w.mailing posts' ++ w.mailing posts := by
  unfold World.mailing
  rw [List.map_append, List.reverse_append]

private theorem mailing_of_core (h : w'.core = w.core) (posts : List (Post N)) :
    w'.mailing posts = w.mailing posts := by
  unfold World.mailing
  simp only [wireOf_of_core h]

/-- The message is for a connected server among those with `P`, in the form that the record of
the server asks for. -/
structure Post.Proper (c : Crypto) (P : Fin N → Prop) (w : World N) (p : Post N) : Prop where
  audience : P p.receiver
  connected : (w.servers p.receiver).connected = true
  form : p.wire = (w.servers p.receiver).wire c p.plain

/-- Between the states sessions and forms stay as they are, and proper messages are sent. -/
structure Mails (c : Crypto) (P : Fin N → Prop) (w w' : World N) : Prop where
  core : w'.core = w.core
  sealing : ∀ s, (w'.servers s).sealing = (w.servers s).sealing
  posts : ∃ posts : List (Post N), w'.sends = w.mailing posts ++ w.sends ∧
    ∀ p ∈ posts, p.Proper c P w

namespace Mails

variable {P : Fin N → Prop}

/-- A part that sends nothing. -/
theorem quiet (hcore : w'.core = w.core)
    (hsealing : ∀ s, (w'.servers s).sealing = (w.servers s).sealing)
    (hsends : w'.sends = w.sends) : Mails c P w w' :=
  ⟨hcore, hsealing, [], hsends, fun _ hp ↦ (List.not_mem_nil hp).elim⟩

/-- Nothing has been sent so far. -/
theorem refl (w : World N) : Mails c P w w := quiet rfl (fun _ ↦ rfl) rfl

/-- What is sent in two parts is sent one behind the other. -/
theorem trans {w₁ : World N} (h : Mails c P w w₁) (h' : Mails c P w₁ w') : Mails c P w w' := by
  refine ⟨h'.core.trans h.core, fun s ↦ (h'.sealing s).trans (h.sealing s), ?_⟩
  obtain ⟨posts, hsends, hproper⟩ := h.posts
  obtain ⟨posts', hsends', hproper'⟩ := h'.posts
  refine ⟨posts ++ posts', ?_, fun p hp ↦ ?_⟩
  · rw [hsends', hsends, mailing_of_core h.core, World.mailing_append, List.append_assoc]
  · rcases List.mem_append.mp hp with hp | hp
    · exact hproper p hp
    · have hlater := hproper' p hp
      refine ⟨hlater.audience, ?_, ?_⟩
      · rw [← connected_of_core h.core]
        exact hlater.connected
      · rw [hlater.form, wire_congr c (h.sealing p.receiver)]

/-- Assignments to a record that show neither in sessions nor in forms. -/
theorem assign (w : World N) (s : Fin N) {f : Q2Server → Q2Server}
    (hrecord : ∀ r, (f r).record = r.record) (hsealing : ∀ r, (f r).sealing = r.sealing) :
    Mails c P w (w.updateServer s f) := by
  refine quiet (core_assign w s hrecord) (fun t ↦ ?_) rfl
  by_cases ht : t = s
  · rw [ht, World.updateServer_self, hsealing]
  · rw [World.updateServer_of_ne _ _ ht]

/-- A message that is sent. -/
theorem posted {s : Fin N} (hs : P s) (hc : (w.servers s).connected = true)
    (plain : List UInt8) : Mails c P w (w.posted s plain ((w.servers s).wire c plain)) := by
  refine ⟨core_posted w s _ _, fun t ↦ ?_, [⟨s, plain, (w.servers s).wire c plain⟩],
    w.posted_sends s _ _, fun p hp ↦ ?_⟩
  · by_cases ht : t = s
    · rw [ht, World.posted_self]
      rfl
    · rw [World.posted_of_ne _ _ _ ht]
  · rw [List.mem_singleton.mp hp]
    exact ⟨hs, hc, rfl⟩

/-- `SendBuffer` mails to its server. -/
theorem sendBuffer {s : Fin N} (hs : P s) (w : World N) :
    Mails c P w (final (Q2Admin.sendBuffer c s) w) := by
  cases h : (Q2Admin.sendBuffer c s).run w with
  | ok u w' =>
    rw [final_of_ok h]
    rcases sendBuffer_cases h with ⟨_, rfl⟩ | ⟨hc, _, _, rfl⟩
    · exact refl _
    · exact posted hs hc _
  | error e w' =>
    have hsends := sendsTo_final c s w
    rw [final_of_error h]
    rcases sendBuffer_error h with rfl | ⟨_, rfl⟩
    · exact refl _
    · have hcore : World.core { w with trace := w.enciphering s ++ w.trace } = w.core := by
        have htalks := (talks_sendBuffer c s).keeps_core w
        rwa [final_of_error h] at htalks
      exact quiet hcore (fun _ ↦ rfl) (w.enciphering_sends s)

/-- Without checks of answers and closed connections the elementary changes mail. -/
theorem change (h : Change c q2 P False w w') : Mails c P w w' := by
  cases h with
  | @write s hs m _ => exact assign w s (fun _ ↦ rfl) fun _ ↦ rfl
  | send hs => exact sendBuffer hs w
  | format => exact quiet rfl (fun _ ↦ rfl) rfl
  | ping => exact assign w q2 (fun _ ↦ rfl) fun _ ↦ rfl
  | tell => exact assign w q2 (fun _ ↦ rfl) fun _ ↦ rfl
  | check hs => exact hs.elim
  | close hs => exact hs.elim

/-- A chain of changes mails what its changes mail. -/
theorem chain (h : Relation.ReflTransGen (Change c q2 P False) w w') : Mails c P w w' := by
  induction h with
  | refl => exact refl w
  | tail _ hc ih => exact ih.trans (change hc)

/-- A program that changes step by step mails what its steps mail. -/
theorem moves {α : Type} {x : M N α} {a : α} (hx : Moves (Change c q2 P False) x)
    (h : x.run w = .ok a w') : Mails c P w w' := by
  have hchain := hx w
  rw [final_of_ok h] at hchain
  exact chain hchain

end Mails

/-- The messages that a command sends, each in the form that the record of its server asks for
behind the command. -/
def Posts (c : Crypto) (P : Fin N → Prop) (w w' : World N) : Prop :=
  ∃ posts : List (Post N), w'.sends = w.mailing posts ++ w.sends ∧
    ∀ p ∈ posts, P p.receiver ∧ (w.servers p.receiver).connected = true ∧
      p.wire = (w'.servers p.receiver).wire c p.plain

variable {P : Fin N → Prop}

private theorem Mails.toPosts (h : Mails c P w w') : Posts c P w w' := by
  obtain ⟨posts, hsends, hproper⟩ := h.posts
  refine ⟨posts, hsends, fun p hp ↦ ⟨(hproper p hp).audience, (hproper p hp).connected, ?_⟩⟩
  rw [(hproper p hp).form, wire_congr c (h.sealing p.receiver)]

private theorem keeps_sealing_close (s : Fin N) :
    Keeps (fun w ↦ (w.servers s).sealing) (closeConnection q2) :=
  keeps_close (fun _ _ ↦ keeps_server_logEvent _ s) (fun _ ↦ keeps_server_logEvent _ s)
    (keeps_modifyServer q2 s (v := Q2Server.sealing) fun _ ↦ rfl)
    (keeps_removeServerSocket (v := Q2Server.sealing) (fun _ _ ↦ rfl) s)

private theorem refused_posts (hq : P q2) (honly : ∀ s, P s → s = q2)
    (h : (concludeAuth c q2 false).run w = .ok () w') : Posts c P w w' := by
  obtain ⟨_, w₁, h₁, h⟩ := run_bind_ok h
  obtain ⟨_, w₂, h₂, h₁⟩ := run_bind_ok h₁
  obtain ⟨_, w₃, h₃, h₁⟩ := run_bind_ok h₁
  have herror : Mails c P w w₃ :=
    (Mails.moves (moves_onOut c q2 hq (lengthens_bind (lengthens_byte _) fun _ ↦
      lengthens_bind (lengthens_byte _) fun _ ↦ lengthens_byte_string _ _)) h₂).trans
        (Mails.moves (moves_sendBuffer c q2 hq) h₃)
  have hclosed : (w₁.servers q2).connected = false := closeConnection_disconnects h₁
  have hack : Mails c P w₁ w' := Mails.moves (moves_acceptAuth c q2 hq) h
  obtain ⟨late, hlate, hnone⟩ := hack.posts
  -- The server is not connected any more.
  have hnil : late = [] := by
    refine List.eq_nil_iff_forall_not_mem.mpr fun p hp ↦ ?_
    have hc := (hnone p hp).connected
    rw [honly _ (hnone p hp).audience, hclosed] at hc
    cases hc
  obtain ⟨posts, hsends, hproper⟩ := herror.posts
  refine ⟨posts, ?_, fun p hp ↦ ⟨(hproper p hp).audience, (hproper p hp).connected, ?_⟩⟩
  · rw [hlate, hnil, (mute_closeConnection q2).ok h₁, hsends]
    rfl
  · have hsealing : (w'.servers p.receiver).sealing = (w.servers p.receiver).sealing :=
      ((hack.sealing _).trans ((keeps_sealing_close _).ok h₁)).trans (herror.sealing _)
    rw [(hproper p hp).form, wire_congr c hsealing]

private theorem auth_posts {cipher : List UInt8}
    (h : (exec c q2 (.auth cipher)).run w = .ok () w') : Posts c (fun s ↦ s = q2) w w' := by
  obtain ⟨b, w₁, h₁, h⟩ := run_bind_ok h
  have hposts : Posts c (fun s ↦ s = q2) w₁ w' := by
    cases b with
    | true =>
      exact (Mails.moves (P := fun s ↦ s = q2) (moves_acceptAuth c q2 rfl) h).toPosts
    | false => exact refused_posts rfl (fun _ hs ↦ hs) h
  obtain ⟨posts, hsends, hproper⟩ := hposts
  -- The check sends nothing and leaves everybody in his slot.
  have hplace (s : Fin N) : w₁.wireOf s = w.wireOf s ∧
      (w₁.servers s).connected = (w.servers s).connected := by
    have hsockets : w₁.sockets = w.sockets :=
      (keeps_check (v := World.sockets) c cipher (fun _ _ _ ↦ rfl) (fun _ _ ↦ rfl)
        (fun _ _ ↦ rfl) fun _ _ _ ↦ rfl).ok h₁
    let place (r : Q2Server) : Nat × Bool := (r.index, r.connected)
    have hrecord : place (w₁.servers s) = place (w.servers s) :=
      (keeps_check (v := fun w ↦ place (w.servers s)) c cipher
        (fun _ _ ↦ keeps_server_logEvent _ s) (fun _ ↦ keeps_server_logEvent _ s)
        (fun _ ↦ keeps_server_createHandle q2 _ s) fun f hf ↦ keeps_modifyServer q2 s fun r ↦
          (congrArg place (hf r) :)).ok h₁
    refine ⟨?_, congrArg Prod.snd hrecord⟩
    have hindex : (w₁.servers s).index = (w.servers s).index := congrArg Prod.fst hrecord
    unfold World.wireOf
    rw [hsockets, hindex]
  refine ⟨posts, ?_, fun p hp ↦ ?_⟩
  · unfold World.mailing at hsends ⊢
    simp only [(hplace _).1] at hsends
    rw [hsends, (mute_checkAnswer c q2 cipher).ok h₁]
  · obtain ⟨hto, hc, hform⟩ := hproper p hp
    rw [(hplace _).2] at hc
    exact ⟨hto, hc, hform⟩

/-- A command sends its messages in the forms that the records ask for behind it, to its own
server only, unless it is an invitation. -/
theorem exec_posts {cmd : Command} (h : (exec c q2 cmd).run w = .ok () w') :
    Posts c (fun s ↦ s = q2 ∨ cmd.isInvite = true) w w' := by
  by_cases hs : cmd.isSession = true
  · cases cmd with
    | auth cipher =>
      obtain ⟨posts, hsends, hproper⟩ := auth_posts h
      exact ⟨posts, hsends, fun p hp ↦ ⟨.inl (hproper p hp).1, (hproper p hp).2⟩⟩
    | quit =>
      exact ⟨[], (mute_closeConnection q2).ok h, fun _ hp ↦ (List.not_mem_nil hp).elim⟩
    | _ => cases hs
  · exact (Mails.moves (moves_exec c q2 (.inl rfl) (fun hinvite _ ↦ .inr hinvite)
      fun hsession ↦ hs hsession) h).toPosts

end Q2Admin
