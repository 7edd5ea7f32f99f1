import Q2Admin.Loop.Broadcast
import Q2Admin.Loop.Overflow

/-!
# The destination of a teleport

Library `Q2Admin.Loop`. Source `parse.c:134–174`, `util.c:220–252` and `server.c:169–180`.
`BuildTeleportServers` lists the trusted servers for a player. `ParseTeleport` looks for the name
that he has chosen among all servers and takes the last one of that name, where
`find_server_by_name` takes the first one. He gets to the server that the list has offered him
exactly if these have the same address and port.
-/

namespace Q2Admin

open Exec

variable {N : Nat} {c : Crypto} {q2 : Fin N} {clientId : UInt8} {name : List UInt8}
  {w w' : World N}

/-- `find_server_by_name` in a list of servers; `server.c:169–180`. -/
def World.findServerByName (w : World N) (servers : List (Fin N)) (name : List UInt8) :
    Option (Fin N) :=
  servers.find? fun s ↦ (w.servers s).nameStr = name

/-- The servers that `BuildTeleportServers` lists. -/
def World.offered (w : World N) : List (Fin N) :=
  (serverList N).filter fun s ↦ (w.servers s).trusted

/-- A text for the player, and the command that connects his client to the server. -/
def connectBytes (clientId : UInt8) (s : Q2Server) : List UInt8 :=
  sayClientBytes clientId printHigh (vaText (sendingFormat s)) ++
    ([scmdCommand] ++ (vaText (stuffFormat clientId s) ++ [0]))

/-- The text for a player whose location is not found. -/
def unlocatedBytes (clientId : UInt8) (name : List UInt8) : List UInt8 :=
  sayClientBytes clientId printHigh (vaText (unlocatedFormat name))

/-- A teleport to the name returns, and the bytes have been queued for the server of the player:
they are one message to it, or they wait in its buffer if it is not connected. -/
def Queues (c : Crypto) (q2 : Fin N) (clientId : UInt8) (name bytes : List UInt8) (w : World N) :
    Prop :=
  ∃ w', (teleport c q2 clientId name).run w = .ok () w' ∧
    ((w.servers q2).connected = true →
      ∃ wire, w'.sends = .sent (w.servers q2).socket bytes wire :: w.sends) ∧
    ((w.servers q2).connected = false →
      w'.sends = w.sends ∧ (w'.servers q2).msg.contents = (w.servers q2).msg.contents ++ bytes)

/-- A teleport accepts the destinations that the list offers: it connects the player if and only if
a listed server has that name, to the one that `find_server_by_name` finds among the listed ones,
and else it tells him that there is none. -/
structure AcceptsOffered (c : Crypto) (q2 : Fin N) (clientId : UInt8) (name : List UInt8)
    (w : World N) : Prop where
  connects : (∃ s, Queues c q2 clientId name (connectBytes clientId s) w) ↔
    ∃ s, (w.servers s).trusted = true ∧ (w.servers s).nameStr = name
  target : ∀ f, w.findServerByName w.offered name = some f →
    Queues c q2 clientId name (connectBytes clientId (w.servers f)) w
  refused : w.findServerByName w.offered name = none →
    Queues c q2 clientId name (unlocatedBytes clientId name) w

/-- No server behind it in the list has the name. -/
structure LastNamed (servers : Fin N → Q2Server) (name : List UInt8) (l : Fin N) : Prop where
  named : (servers l).nameStr = name
  last : ∀ s, l < s → (servers s).nameStr ≠ name

/-- A trusted server, and no trusted server before it in the list has the name. -/
structure FirstOffered (servers : Fin N → Q2Server) (name : List UInt8) (f : Fin N) : Prop where
  trusted : (servers f).trusted = true
  named : (servers f).nameStr = name
  first : ∀ s, s < f → (servers s).trusted = true → (servers s).nameStr ≠ name

/-- The last server of that name is where the first trusted one is. -/
def World.OneDestination (w : World N) (name : List UInt8) : Prop :=
  ∀ l, LastNamed w.servers name l → ∃ f, FirstOffered w.servers name f ∧
    (w.servers l).ipStr = (w.servers f).ipStr ∧ (w.servers l).port = (w.servers f).port

/-- What the player should be told. -/
def World.answer (w : World N) (clientId : UInt8) (name : List UInt8) : List UInt8 :=
  (w.findServerByName w.offered name).elim (unlocatedBytes clientId name)
    fun f ↦ connectBytes clientId (w.servers f)

/-- A server that is connected is sent what it should be told; the buffer of another has room
for it. -/
def World.RoomToAnswer (w : World N) (q2 : Fin N) (clientId : UInt8) (name : List UInt8) : Prop :=
  (w.servers q2).connected = false →
    (w.servers q2).msg.length + (w.answer clientId name).length ≤ msgSize

private theorem find?_ordered {r : Fin N → Fin N → Prop} (hr : ∀ a b, r a b → ¬ r b a)
    {l : List (Fin N)} (hl : l.Pairwise r) {p : Fin N → Bool} {a : Fin N} :
    l.find? p = some a ↔ a ∈ l ∧ p a = true ∧ ∀ b ∈ l, r b a → p b = false := by
  rw [List.find?_eq_some_iff_append]
  constructor
  · rintro ⟨hp, as, bs, rfl, has⟩
    refine ⟨List.mem_append_right _ List.mem_cons_self, hp, fun b hb hlt ↦ ?_⟩
    rcases List.mem_append.mp hb with hb | hb
    · simpa using has b hb
    · obtain ⟨_, hbs, _⟩ := List.pairwise_append.mp hl
      rcases List.mem_cons.mp hb with rfl | hb
      · exact absurd hlt (hr b b hlt)
      · exact absurd hlt (hr a b ((List.pairwise_cons.mp hbs).1 b hb))
  · rintro ⟨ha, hp, hfirst⟩
    obtain ⟨as, bs, rfl⟩ := List.append_of_mem ha
    refine ⟨hp, as, bs, rfl, fun b hb ↦ ?_⟩
    have hlt : r b a := (List.pairwise_append.mp hl).2.2 b hb a List.mem_cons_self
    simpa using hfirst b (List.mem_append_left _ hb) hlt

private theorem findServerByName_offered {f : Fin N} :
    w.findServerByName w.offered name = some f ↔ FirstOffered w.servers name f := by
  have hsorted : w.offered.Pairwise (· < ·) := (List.pairwise_lt_finRange N).filter _
  have hmem (s : Fin N) : s ∈ w.offered ↔ (w.servers s).trusted = true := by
    unfold World.offered serverList
    simp
  unfold World.findServerByName
  rw [find?_ordered (fun _ _ ↦ Fin.lt_asymm) hsorted, hmem]
  constructor
  · rintro ⟨ht, hn, hfirst⟩
    refine ⟨ht, of_decide_eq_true hn, fun s hs hts ↦ ?_⟩
    exact of_decide_eq_false (hfirst s ((hmem s).mpr hts) hs)
  · rintro ⟨ht, hn, hfirst⟩
    refine ⟨ht, decide_eq_true hn, fun s hs hlt ↦ ?_⟩
    exact decide_eq_false (hfirst s hlt ((hmem s).mp hs))

private theorem located_eq_some {l : Fin N} :
    w.located name = some l ↔ LastNamed w.servers name l := by
  have hsorted : (serverList N).reverse.Pairwise fun a b ↦ b < a :=
    List.pairwise_reverse.mpr (List.pairwise_lt_finRange N)
  have hmem (s : Fin N) : s ∈ (serverList N).reverse :=
    List.mem_reverse.mpr (List.mem_finRange s)
  unfold World.located
  rw [find?_ordered (fun _ _ ↦ Fin.lt_asymm) hsorted]
  constructor
  · rintro ⟨_, hn, hlast⟩
    exact ⟨of_decide_eq_true hn, fun s hs ↦ of_decide_eq_false (hlast s (hmem s) hs)⟩
  · rintro ⟨hn, hlast⟩
    exact ⟨hmem l, decide_eq_true hn, fun s _ hs ↦ decide_eq_false (hlast s hs)⟩

/-- The loop of `ParseTeleport` as it is written: it does not break, so that a later match replaces
an earlier one. -/
theorem located_eq_foldl (w : World N) (name : List UInt8) :
    w.located name = (serverList N).foldl
      (fun found s ↦ if (w.servers s).nameStr = name then some s else found) none := by
  have hloop (l : List (Fin N)) (found : Option (Fin N)) :
      l.foldl (fun found s ↦ if (w.servers s).nameStr = name then some s else found) found =
        (l.reverse.find? fun s ↦ (w.servers s).nameStr = name).or found := by
    induction l generalizing found with
    | nil => rfl
    | cons s l ih =>
      rw [List.foldl_cons, ih, List.reverse_cons, List.find?_append, Option.or_assoc]
      by_cases hn : (w.servers s).nameStr = name
      · simp [hn]
      · simp [hn]
  rw [hloop, Option.or_none]
  rfl

private theorem ipStr_length (s : Q2Server) : s.ipStr.length ≤ 18 := by
  have hlen : s.ipStr.length ≤ (s.ip.bytes ++ [(s.port &&& 0xff).toUInt8,
      (s.port >>> 8).toUInt8]).length := (List.takeWhile_prefix _).length_le
  rwa [List.length_append, s.ip.length_eq] at hlen

private theorem decimal_port_length (p : UInt16) : (decimal p.toNat).length ≤ 5 := by
  unfold decimal
  rw [List.length_map, Nat.length_toDigits_le_iff (by decide) (by decide)]
  exact Nat.lt_trans p.toNat_lt (by decide)

private theorem vaText_sending (s : Q2Server) : vaText (sendingFormat s) =
    ascii "sending you to " ++ (s.ipStr ++ 0x3a :: decimal s.port.toNat) ++ ascii "\n" := by
  have hip := ipStr_length s
  have hport := decimal_port_length s.port
  have hfixed : (ascii "sending you to ").length = 15 := by decide
  have hend : (ascii "\n").length = 1 := by decide
  have hcolon : ascii ":" = [0x3a] := by decide
  have hprint : (sendingFormat s).flatMap (Piece.print fun _ ↦ []) =
      ascii "sending you to " ++ (s.ipStr ++ 0x3a :: decimal s.port.toNat) ++ ascii "\n" := by
    simp [sendingFormat, Piece.print, CharPtr.deref, hcolon]
  have hsize : maxStringChars = 1024 := rfl
  unfold vaText
  rw [hprint]
  refine List.take_of_length_le ?_
  simp only [List.length_append, List.length_cons, hfixed, hend]
  omega

private theorem cstr_sayClient {text : List UInt8} (htext : (0 : UInt8) ∉ text)
    (clientId : UInt8) (rest : List UInt8) :
    cstr ((sayClientBytes clientId printHigh text ++ rest).drop 3) = text := by
  have hdrop : (sayClientBytes clientId printHigh text ++ rest).drop 3 = text ++ [0] ++ rest := rfl
  rw [hdrop, List.append_assoc]
  exact cstr_append_nul htext rest

/-- An answer tells where the player gets to. -/
theorem connectBytes_inj {s s' : Q2Server}
    (h : connectBytes clientId s = connectBytes clientId s') :
    s.ipStr = s'.ipStr ∧ s.port = s'.port := by
  have hnul (r : Q2Server) : (0 : UInt8) ∉ vaText (sendingFormat r) :=
    nul_notMem_print (nul_notMem_sending r) _
  have htext : vaText (sendingFormat s) = vaText (sendingFormat s') := by
    have hcstr := congrArg (fun bs : List UInt8 ↦ cstr (bs.drop 3)) h
    unfold connectBytes at hcstr
    rwa [cstr_sayClient (hnul s), cstr_sayClient (hnul s')] at hcstr
  rw [vaText_sending, vaText_sending] at htext
  have hwhere := List.append_cancel_left (List.append_cancel_right htext)
  have hcolon (p : UInt16) : (0x3a : UInt8) ∉ decimal p.toNat := fun hmem ↦ by
    have hbounds := digit_of_mem_decimal hmem
    exact absurd hbounds.2 (by decide)
  obtain ⟨hip, hport⟩ := append_separator_inj (hcolon s.port) (hcolon s'.port) hwhere
  exact ⟨hip, UInt16.toNat_inj.mp (decimal_injective hport)⟩

/-- The two answers begin with different texts. -/
theorem connectBytes_ne_unlocated (s : Q2Server) :
    connectBytes clientId s ≠ unlocatedBytes clientId name := by
  intro h
  have hfirst := congrArg (fun bs : List UInt8 ↦ bs[3]?) h
  cases hfirst

/-- What a TELEPORT answers. -/
theorem teleport_reply (hname : name ≠ []) : (Command.teleport clientId name).reply c w q2 =
    (w.located name).elim (unlocatedBytes clientId name)
      fun l ↦ connectBytes clientId (w.servers l) := by
  unfold Command.reply
  dsimp only
  rw [if_neg hname]
  cases w.located name with
  | none => rfl
  | some l => rfl

private theorem hasRoom_iff (hname : name ≠ []) : w.HasRoom c q2 (.teleport clientId name) ↔
    ((w.servers q2).connected = false → (w.servers q2).msg.length +
      ((Command.teleport clientId name).reply c w q2).length ≤ msgSize) := by
  have hprep : ((Command.teleport clientId name).prepare c q2).run w = .ok () w :=
    prepare_teleport hname
  constructor
  · intro hroom hc
    exact hroom hc w hprep
  · intro hroom hc _ _
    exact hroom hc

private theorem queues_reply (hw : w.core.Wf) (h : w.Quiet) (hin : w.Within) (hname : name ≠ [])
    (hroom : w.HasRoom c q2 (.teleport clientId name)) :
    Queues c q2 clientId name ((Command.teleport clientId name).reply c w q2) w := by
  have hprep : ((Command.teleport clientId name).prepare c q2).run w = .ok () w :=
    prepare_teleport hname
  obtain ⟨w₁, hrun, hpoured, hsends, hcore, hpos, hsealed⟩ := teleport_pours h hin hroom hprep
  obtain ⟨w', hrun', _⟩ := flush_run c h hin hpoured hpos hsealed ((hasRoom_iff hname).mp hroom)
  refine ⟨w', hrun.trans hrun', fun hc ↦ ?_, fun hc ↦ ?_⟩
  · have hwritten : (w₁.servers q2).msg = .ofBytes _ := hpoured.written [] ((h q2).empty hc)
    rcases sendBuffer_ok hrun' with ⟨hidle | hempty, _⟩ | ⟨_, _, wire, hsent⟩
    · rw [hpoured.connected, hc] at hidle
      cases hidle
    · rw [hwritten] at hempty
      exact absurd hempty hpos.ne'
    · refine ⟨wire, ?_⟩
      have hsocket : w.wireOf q2 = (w.servers q2).socket := (hw.slot q2 hc).2
      rw [hsent, hwritten, MsgBuffer.contents_ofBytes, wireOf_of_core hcore, hsends, hsocket]
      rfl
  · have hidle := sendBuffer_idle c (hpoured.connected.trans hc)
    rw [hidle] at hrun'
    cases hrun'
    obtain ⟨bs, hbs, _⟩ := hin q2
    refine ⟨hsends, ?_⟩
    rw [hpoured.written bs hbs, hbs, MsgBuffer.contents_ofBytes, MsgBuffer.contents_ofBytes]

/-- A teleport queues its reply and nothing else, if there is room for it. -/
theorem queues_iff (c : Crypto) (q2 : Fin N) (clientId : UInt8) (bytes : List UInt8)
    (hw : w.core.Wf) (h : w.Quiet) (hin : w.Within) (hname : name ≠ []) :
    Queues c q2 clientId name bytes w ↔
      bytes = (Command.teleport clientId name).reply c w q2 ∧
        ((w.servers q2).connected = false →
          (w.servers q2).msg.length + bytes.length ≤ msgSize) := by
  constructor
  · rintro ⟨w', hrun, hsent, hwaits⟩
    have hroom : w.HasRoom c q2 (.teleport clientId name) := by
      by_contra hno
      rw [hasRoom_iff hname] at hno
      push Not at hno
      obtain ⟨hc, hlong⟩ := hno
      obtain ⟨v, hfault⟩ := exec_faults h hin hc (prepare_teleport hname) hlong
      have hexec : (exec c q2 (.teleport clientId name)).run w = .ok () w' := hrun
      rw [hexec] at hfault
      cases hfault
    obtain ⟨v, hrun', hsent', hwaits'⟩ := queues_reply hw h hin hname hroom
    rw [hrun] at hrun'
    cases hrun'
    have hbytes : bytes = (Command.teleport clientId name).reply c w q2 := by
      cases hc : (w.servers q2).connected with
      | true =>
        obtain ⟨wire, hs⟩ := hsent hc
        obtain ⟨wire', hs'⟩ := hsent' hc
        have hevent := (List.cons.inj (hs.symm.trans hs')).1
        injection hevent
      | false => exact List.append_cancel_left ((hwaits hc).2.symm.trans (hwaits' hc).2)
    refine ⟨hbytes, ?_⟩
    rw [hbytes]
    exact (hasRoom_iff hname).mp hroom
  · rintro ⟨rfl, hroom⟩
    exact queues_reply hw h hin hname ((hasRoom_iff hname).mpr hroom)

private theorem ParseCall.within {rows : Fin N → Row} {listener : Nat} {junk : Nat → PollFd}
    (h : ParseCall c rows listener junk q2 w) : w.Within := by
  cases h with
  | @message ms v run slot client owner recv =>
    have hin : v.Within := run.within
    exact hin
  | @hello ms v _ run slot client owner recv env h m read register =>
    have hin : World.Within { v.receiving recv v.scan with msg := m } := run.within
    cases hkey : World.serverOfKey { v.receiving recv v.scan with msg := m } h.key with
    | none =>
      rw [registerHello_unknown hkey] at register
      cases register
    | some q => exact within_registerHello hin hkey register

/-- Between two commands every buffer is within its array. -/
theorem Reached.within {rows : Fin N → Row} {listener : Nat} {junk : Nat → PollFd}
    (h : Reached c rows listener junk w) : w.Within := by
  refine (h.invariant (P := fun w ↦ w.Quiet ∧ w.Within) ?_ ?_ ?_ ?_).2
  · intro ms w run
    exact ⟨run.quiet, run.within⟩
  · intro q2 w call
    exact ⟨call.quiet, call.within⟩
  · intro w q2 m hw
    exact hw
  · intro q2 cmds w w' hw hexec
    exact ⟨quiet_execAll hw.1 hexec, within_execAll hw.1 hw.2 hexec⟩

private theorem connectBytes_congr {s s' : Q2Server} (hip : s.ipStr = s'.ipStr)
    (hport : s.port = s'.port) : connectBytes clientId s = connectBytes clientId s' := by
  unfold connectBytes sendingFormat stuffFormat
  rw [hip, hport]

-- What the player should be told is what he is told, exactly if the last server of that name is
-- where the first trusted one is.
private theorem answer_eq_reply (hname : name ≠ []) :
    w.answer clientId name = (Command.teleport clientId name).reply c w q2 ↔
      w.OneDestination name := by
  rw [teleport_reply hname]
  unfold World.answer
  constructor
  · intro heq l hl
    rw [located_eq_some.mpr hl] at heq
    cases ho : w.findServerByName w.offered name with
    | none =>
      rw [ho] at heq
      exact absurd heq.symm (connectBytes_ne_unlocated (w.servers l))
    | some f =>
      rw [ho] at heq
      exact ⟨f, findServerByName_offered.mp ho, connectBytes_inj heq.symm⟩
  · intro hone
    cases hl : w.located name with
    | none =>
      have hnone : w.findServerByName w.offered name = none := by
        refine List.find?_eq_none.mpr fun s _ ↦ ?_
        exact List.find?_eq_none.mp hl s (List.mem_reverse.mpr (List.mem_finRange s))
      rw [hnone]
    | some l =>
      obtain ⟨f, hf, hip, hport⟩ := hone l (located_eq_some.mp hl)
      rw [findServerByName_offered.mpr hf]
      exact connectBytes_congr hip.symm hport.symm

private theorem answered_iff (hw : w.core.Wf) (h : w.Quiet) (hin : w.Within) (hname : name ≠ []) :
    Queues c q2 clientId name (w.answer clientId name) w ↔
      w.OneDestination name ∧ w.RoomToAnswer q2 clientId name :=
  (queues_iff c q2 clientId _ hw h hin hname).trans
    (and_congr_left fun _ ↦ answer_eq_reply hname)

private theorem accepts_iff_answered (hw : w.core.Wf) (h : w.Quiet) (hin : w.Within)
    (hname : name ≠ []) :
    AcceptsOffered c q2 clientId name w ↔
      Queues c q2 clientId name (w.answer clientId name) w := by
  have hqueues (bytes : List UInt8) := queues_iff c q2 clientId bytes hw h hin hname
  have hanswer (found : Option (Fin N)) (ho : w.findServerByName w.offered name = found) :
      w.answer clientId name = found.elim (unlocatedBytes clientId name)
        fun f ↦ connectBytes clientId (w.servers f) := by
    rw [← ho]
    rfl
  constructor
  · intro haccepts
    cases ho : w.findServerByName w.offered name with
    | none =>
      rw [hanswer none ho]
      exact haccepts.refused ho
    | some f =>
      rw [hanswer (some f) ho]
      exact haccepts.target f ho
  · intro hanswered
    have htarget (f : Fin N) (ho : w.findServerByName w.offered name = some f) :
        Queues c q2 clientId name (connectBytes clientId (w.servers f)) w := by
      rwa [hanswer (some f) ho] at hanswered
    refine ⟨⟨?_, ?_⟩, htarget, fun ho ↦ ?_⟩
    · rintro ⟨s, hs⟩
      have hsame : connectBytes clientId s = w.answer clientId name :=
        ((hqueues _).mp hs).1.trans ((hqueues _).mp hanswered).1.symm
      cases ho : w.findServerByName w.offered name with
      | none =>
        rw [hanswer none ho] at hsame
        exact absurd hsame (connectBytes_ne_unlocated s)
      | some f =>
        have hf := findServerByName_offered.mp ho
        exact ⟨f, hf.trusted, hf.named⟩
    · rintro ⟨s, ht, hn⟩
      cases ho : w.findServerByName w.offered name with
      | none =>
        have hmem : s ∈ w.offered := List.mem_filter.mpr ⟨List.mem_finRange s, ht⟩
        exact absurd (decide_eq_true hn) (List.find?_eq_none.mp ho s hmem)
      | some f => exact ⟨w.servers f, htarget f ho⟩
    · rwa [hanswer none ho] at hanswered

private theorem accepts_iff (hw : w.core.Wf) (h : w.Quiet) (hin : w.Within) (hname : name ≠ []) :
    AcceptsOffered c q2 clientId name w ↔
      w.OneDestination name ∧ w.RoomToAnswer q2 clientId name :=
  (accepts_iff_answered hw h hin hname).trans (answered_iff hw h hin hname)

/-- Between two commands a teleport accepts the destination that the list offers exactly if the last
server of that name is where the first trusted one is, and the answer has room. -/
theorem acceptsOffered_iff (c : Crypto) (rows : Fin N → Row) (listener : Nat) (junk : Nat → PollFd)
    (w : World N) (reached : Reached c rows listener junk w) (q2 : Fin N) (clientId : UInt8)
    (name : List UInt8) (hname : name ≠ []) (m : MsgBuffer) :
    AcceptsOffered c q2 clientId name { w with msg := m } ↔
      w.OneDestination name ∧ w.RoomToAnswer q2 clientId name :=
  accepts_iff (w := { w with msg := m }) reached.wf reached.quiet reached.within hname

/-- The only server there is accepts what its own list offers. -/
theorem acceptsOffered_sample : ∃ w : World 1, (w.servers 0).trusted = true ∧
    AcceptsOffered Crypto.clear 0 0 (ascii "s") w := by
  have h : (follow (step Crypto.clear) Unguarded sampleSession sampleStart).any
      (fun w ↦ (w.servers 0).connected && (w.servers 0).trusted &&
        (w.servers 0).nameStr == ascii "s") = true := by decide +kernel
  obtain ⟨w, hrun, hw⟩ := Run.exists_of_follow h
  rw [Bool.and_eq_true, Bool.and_eq_true, beq_iff_eq] at hw
  rcases hw with ⟨⟨hc, ht⟩, hname⟩
  have hfirst : FirstOffered w.servers (ascii "s") 0 :=
    ⟨ht, hname, fun s hs ↦ (Fin.not_lt_zero s hs).elim⟩
  have hone : w.OneDestination (ascii "s") := fun l _ ↦ by
    rw [Subsingleton.elim l 0]
    exact ⟨0, hfirst, rfl, rfl⟩
  have hroom : w.RoomToAnswer 0 0 (ascii "s") := fun hgone ↦ by
    rw [hc] at hgone
    cases hgone
  exact ⟨w, ht, (acceptsOffered_iff Crypto.clear _ _ _ w (.loop hrun) 0 0 (ascii "s") (by decide)
    w.msg).mpr ⟨hone, hroom⟩⟩

/-- A server that has said HELLO and is not verified is not listed, but players get to it. -/
theorem unlisted_accepted :
    ¬ ∀ (ms : List Move) (w : World 1), Run (step Crypto.clear) Unguarded ms sampleStart w →
      AcceptsOffered Crypto.clear 0 0 (ascii "s") w := by
  have h : (follow (step Crypto.clear) Unguarded sampleBound sampleStart).any
      (fun w ↦ !(w.servers 0).trusted && (w.servers 0).nameStr == ascii "s") = true := by
    decide +kernel
  obtain ⟨w, hrun, hw⟩ := Run.exists_of_follow h
  rw [Bool.and_eq_true, Bool.not_eq_true', beq_iff_eq] at hw
  obtain ⟨ht, hname⟩ := hw
  intro hall
  have hlast : LastNamed w.servers (ascii "s") 0 := ⟨hname, fun s hs ↦ by
    rw [Subsingleton.elim s 0] at hs
    exact absurd hs (Fin.lt_irrefl 0)⟩
  obtain ⟨hone, _⟩ := (accepts_iff (hrun.wf _ _ _) hrun.quiet hrun.within (by decide)).mp
    (hall _ w hrun)
  obtain ⟨f, hf, _⟩ := hone 0 hlast
  have htrusted := hf.trusted
  rw [Subsingleton.elim f 0, ht] at htrusted
  cases htrusted

end Q2Admin
