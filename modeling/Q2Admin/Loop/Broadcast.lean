import Q2Admin.Session.Room
import Q2Admin.Loop.Authority

/-!
# Invitations reach every server

Library `Q2Admin.Loop`. Between two commands nothing waits in the buffer of a connected server,
so an invitation is the whole message that every connected server gets. This holds in the states
of the loop and in those in the middle of a message, which `Reached` comprises.
-/

namespace Q2Admin

open Exec

variable {N : Nat}

/-- The states between two commands: those at an iteration boundary of the event loop, and those
that the first rounds of the loop of `ParseMessage` leave. -/
inductive Reached (c : Crypto) (rows : Fin N → Row) (listener : Nat) (junk : Nat → PollFd) :
    World N → Prop
  | loop {ms : List Move} {w : World N}
      (run : Run (step c) Unguarded ms (initial rows listener junk) w) :
      Reached c rows listener junk w
  | rounds {q2 : Fin N} {w w' : World N} (call : ParseCall c rows listener junk q2 w) (n : Nat)
      (run : (decryptMessage c q2 >>= fun _ ↦ parseLoop c q2 n).run w = .ok () w') :
      Reached c rows listener junk w'

/-- The text of an invitation. -/
def Q2Server.inviteText (s : Q2Server) (clientId : UInt8) (text : List UInt8) : List UInt8 :=
  ((inviteFormat s clientId text).flatMap (Piece.print fun _ ↦ [])).take (maxStringChars - 1)

/-- One message to each connected server, in list order. -/
def World.broadcast (c : Crypto) (w : World N) (message : List UInt8) : List Event :=
  ((serverList N).filter fun s ↦ (w.servers s).connected).map fun s ↦
    .sent (w.servers s).socket message ((w.servers s).wire c message)

/-- What an INVITE between two commands comes to: each connected server gets one message on its
socket, made of the command byte, the text and its terminator, and no record changes. -/
def Announces (c : Crypto) (q2 : Fin N) (text : List UInt8) (w : World N) (m : MsgBuffer) : Prop :=
  text.length < maxStringChars ∧ (0 : UInt8) ∉ text ∧
    ∃ w', (parseNext c q2).run { w with msg := m } = .ok () w' ∧
      w'.sends = (w.broadcast c ([scmdSayAll] ++ text ++ [0])).reverse ++ w.sends ∧
      w'.servers = w.servers

section Reached

variable {c : Crypto} {rows : Fin N → Row} {listener : Nat} {junk : Nat → PollFd} {q2 : Fin N}
  {w w' : World N}

/-- Between two commands every connected server has an empty buffer. -/
theorem ParseCall.quiet (h : ParseCall c rows listener junk q2 w) : w.Quiet := by
  cases h with
  | @message ms v run slot client owner recv =>
    have hquiet : v.Quiet := run.quiet
    exact hquiet
  | @hello ms v _ run slot client owner recv env h m read register =>
    have hquiet : v.Quiet := run.quiet
    exact quiet_registerHello (w := { v.receiving recv v.scan with msg := m }) hquiet register

/-- The first rounds of the loop execute commands. -/
theorem rounds_exec {n : Nat}
    (h : (decryptMessage c q2 >>= fun _ ↦ parseLoop c q2 n).run w = .ok () w') :
    ∃ (cmds : List Command) (m : MsgBuffer), (forM cmds (exec c q2)).run
      { w with msg := m, trace := w.deciphering q2 ++ w.trace } = .ok () w' := by
  obtain ⟨_, w₁, h₁, h⟩ := run_bind_ok h
  obtain ⟨_, rfl⟩ := decryptMessage_ok h₁
  obtain ⟨cmds, m, _, hexec⟩ := (parseLoop_splits c q2 n _ _ _).mp h
  exact ⟨cmds, m, hexec⟩

/-- What holds in every state that the loop reaches and whenever a message is parsed, and what the
commands keep, holds between any two commands. -/
theorem Reached.invariant {P : World N → Prop} (h : Reached c rows listener junk w)
    (hrun : ∀ (ms : List Move) (w : World N),
      Run (step c) Unguarded ms (initial rows listener junk) w → P w)
    (hcall : ∀ (q2 : Fin N) (w : World N), ParseCall c rows listener junk q2 w → P w)
    (hdecrypt : ∀ (w : World N) (q2 : Fin N) (m : MsgBuffer), P w →
      P { w with msg := m, trace := w.deciphering q2 ++ w.trace })
    (hexec : ∀ (q2 : Fin N) (cmds : List Command) (w w' : World N), P w →
      (forM cmds (exec c q2)).run w = .ok () w' → P w') : P w := by
  cases h with
  | loop run => exact hrun _ _ run
  | @rounds q2 v _ call n run =>
    obtain ⟨cmds, m, hrounds⟩ := rounds_exec run
    exact hexec q2 cmds _ w (hdecrypt v q2 m (hcall q2 v call)) hrounds

/-- Between two commands every server is quiet. -/
theorem Reached.quiet (h : Reached c rows listener junk w) : w.Quiet :=
  h.invariant (fun _ _ run ↦ run.quiet) (fun _ _ call ↦ call.quiet) (fun _ _ _ hw ↦ hw)
    fun _ _ _ _ hw hexec ↦ quiet_execAll hw hexec

/-- Between two commands table and records agree. -/
theorem Reached.wf (h : Reached c rows listener junk w) : w.core.Wf := by
  refine h.invariant (P := fun w ↦ w.core.Wf) (fun _ _ run ↦ run.wf rows listener junk)
    (fun _ _ call ↦ call.wf) ?_ ?_
  · intro w q2 m hw
    have hcore : World.core { w with msg := m, trace := w.deciphering q2 ++ w.trace } = w.core :=
      core_deciphering w q2 { w with msg := m }
    rw [hcore]
    exact hw
  · intro q2 cmds w w' hw hexec
    rw [core_execAll hexec]
    exact Core.wf_applyAll hw q2 _

end Reached

private theorem inviteText_length (s : Q2Server) (clientId : UInt8) (text : List UInt8) :
    (s.inviteText clientId text).length < maxStringChars := vaText_length _

private theorem nul_notMem_inviteText (s : Q2Server) (clientId : UInt8) {text : List UInt8}
    (htext : (0 : UInt8) ∉ text) : (0 : UInt8) ∉ s.inviteText clientId text := by
  have hplayer : (0 : UInt8) ∉ (s.players clientId).nameStr := nul_notMem_cstr _
  have hserver : (0 : UInt8) ∉ s.nameStr := nul_notMem_cstr _
  have hliterals : (0 : UInt8) ∉ ascii " invites you to play on " ∧ (0 : UInt8) ∉ ascii ": " ∧
      (0 : UInt8) ∉ ascii "You are cordially invited to join " ∧
      (0 : UInt8) ∉ ascii " playing on " := by decide
  obtain ⟨hinvites, hcolon, hcordially, hplaying⟩ := hliterals
  apply nul_notMem_print
  unfold inviteFormat
  dsimp only
  split
  · simp only [List.forall_mem_cons, Piece.print, CharPtr.deref]
    exact ⟨hplayer, hinvites, hserver, hcolon, htext, List.forall_mem_nil _⟩
  · simp only [List.forall_mem_cons, Piece.print, CharPtr.deref]
    exact ⟨hcordially, hplayer, hplaying, hserver, List.forall_mem_nil _⟩

private theorem invite_run (c : Crypto) (q2 : Fin N) (clientId : UInt8) {text : List UInt8}
    {w : World N} (hw : w.core.Wf) (h : w.Quiet) (htext : (0 : UInt8) ∉ text) :
    ∃ w', (invite c q2 clientId text).run w = .ok () w' ∧ w'.servers = w.servers ∧
      w'.sends = (w.broadcast c
        (sayAllBytes ((w.servers q2).inviteText clientId text))).reverse ++ w.sends := by
  have hcopy : cstr (strncpy maxStringChars ((w.servers q2).inviteText clientId text)).bytes =
      (w.servers q2).inviteText clientId text := by
    have hfits := cstr_strncpy (nul_notMem_inviteText (w.servers q2) clientId htext)
      (inviteText_length (w.servers q2) clientId text) []
    rwa [List.append_nil] at hfits
  have hquiet : (w.formatted (inviteFormat (w.servers q2) clientId text)).Quiet := h
  obtain ⟨w', hrun, hservers, hsends⟩ := sayAll_forM_run (c := c) (serverList N) hquiet
    (inviteText_length (w.servers q2) clientId text)
  have hinvite := invite_eq c q2 clientId text w
  unfold Q2Server.inviteText at hcopy
  unfold vaText at hinvite
  rw [hcopy] at hinvite
  refine ⟨w', hinvite.trans hrun, hservers, ?_⟩
  rw [hsends]
  refine congrArg (fun l : List Event ↦ l.reverse ++ w.sends) (List.map_congr_left fun s hs ↦ ?_)
  have hc : (w.servers s).connected = true := (List.mem_filter.mp hs).2
  have hwire : (w.formatted (inviteFormat (w.servers q2) clientId text)).wireOf s =
      (w.servers s).socket := (hw.slot s hc).2
  rw [hwire]
  rfl

private def sampleGreeting : Text := ⟨104, [105], by decide⟩

-- The first one of two servers says HELLO, the second one stays away.
private def sampleCouple (s : Fin 2) : Row :=
  ⟨1, 5 + s.val.toUInt32, 0, ascii "s", ascii "h", 27910, true⟩

end Q2Admin
