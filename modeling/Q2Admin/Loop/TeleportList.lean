import Q2Admin.Base.Ring
import Q2Admin.Session.Texts
import Q2Admin.Model.Loop

/-!
# The list of servers for players

Library `Q2Admin.Loop`. Source `util.c:220–252`. `BuildTeleportServers` keeps the text that it
has collected in one of the eight buffers of `va` while it calls `va` once for each player of the
next server. The text survives that if these are six at most; with seven the text is the
destination of the call that reads it, and with eight or more it has been overwritten.
-/

namespace Q2Admin

open Exec

variable {N : Nat}

/-- The entry of a player in the list of names. -/
def Q2Server.nameEntry (s : Q2Server) (i : Nat) : List UInt8 :=
  (s.players i.toUInt8).nameStr ++ ascii ", "

/-- The names of the players, separated by a comma and a space. -/
def Q2Server.joinedNames (s : Q2Server) : List UInt8 :=
  (ascii ", ").intercalate ((List.range s.playercount.toNat).map fun i ↦
    (s.players i.toUInt8).nameStr)

/-- The line of a server: name, map, number of players and their names. -/
def Q2Server.listing (s : Q2Server) : List UInt8 :=
  padRight 17 s.nameStr ++ [0x20] ++ s.mapStr ++ ascii " (" ++ decimal s.playercount.toNat ++
    ascii "/" ++ decimal s.maxclients.toNat ++ ascii ") " ++ s.joinedNames

/-- A newline, and each line with one behind it. -/
def teleportText (servers : List Q2Server) : List UInt8 :=
  ascii "\n" ++ servers.flatMap fun s ↦ s.listing ++ ascii "\n"

/-- The trusted servers, in list order. -/
def World.trustedServers (w : World N) : List Q2Server :=
  ((serverList N).map w.servers).filter Q2Server.trusted

/-- The server has players in its first slots, with terminated names; their list and the line of
the server fit. -/
structure Q2Server.Listable (s : Q2Server) : Prop where
  players : 1 ≤ s.playercount.toNat
  names : ∀ i, i < s.playercount.toNat →
    (s.players i.toUInt8).name.Terminated ∧ (s.players i.toUInt8).nameStr ≠ []
  joined : s.joinedNames.length < teleportPlayersSize
  line : s.listing.length < teleportLineSize

/-- Every trusted server can be listed, and the whole list fits. -/
structure World.Listable (w : World N) : Prop where
  servers : ∀ s ∈ w.trustedServers, s.Listable
  total : (teleportText w.trustedServers).length < maxStringChars

/-- `BuildTeleportServers` returns the list as it should be. -/
def World.ListsTrusted (w : World N) : Prop :=
  ∃ p w', buildTeleportServers.run w = .ok p w' ∧
    p.deref w'.vaStrings = teleportText w.trustedServers

/-- Every trusted server but the first has six players at most. -/
def World.Sparse (w : World N) : Prop :=
  ∀ s ∈ w.trustedServers.tail, s.playercount.toNat ≤ 6

/-- Names that fit a line fit `players` even with a comma and a space behind the last one. -/
theorem Q2Server.Listable.spare {s : Q2Server} (h : s.Listable) :
    s.joinedNames.length + 2 < teleportPlayersSize := by
  have hline := h.line
  have hsizes : teleportLineSize = 100 ∧ teleportPlayersSize = 300 := ⟨rfl, rfl⟩
  unfold Q2Server.listing at hline
  rw [List.length_append] at hline
  omega

private theorem nameStr_length {p : Player} (h : p.name.Terminated) : p.nameStr.length < 15 := by
  obtain ⟨pre, post, hbytes⟩ := List.append_of_mem h
  have hlen := congrArg List.length hbytes
  rw [p.name.length_eq, List.length_append, List.length_cons] at hlen
  unfold Player.nameStr
  have hle : (cstr (p.name.bytes ++ p.userinfo.bytes)).length ≤ pre.length := by
    rw [hbytes, List.append_assoc, List.cons_append]
    unfold cstr
    rw [List.takeWhile_append]
    split
    · rw [List.takeWhile_cons_of_neg (by simp), List.append_nil]
    · exact (List.takeWhile_prefix _).length_le
  omega

private theorem nameEntry_length {s : Q2Server} {i : Nat}
    (h : (s.players i.toUInt8).name.Terminated) : (s.nameEntry i).length ≤ 16 := by
  have hlen := nameStr_length h
  have hsep : (ascii ", ").length = 2 := by decide
  unfold Q2Server.nameEntry
  rw [List.length_append, hsep]
  omega

private theorem nameEntry_fits (s : Q2Server) (i : Nat) :
    (s.nameEntry i).length ≤ maxStringChars - 1 := by
  have hsize : maxStringChars = 1024 := rfl
  have hsep : (ascii ", ").length = 2 := by decide
  have hname : (s.players i.toUInt8).nameStr.length ≤
      ((s.players i.toUInt8).name.bytes ++ (s.players i.toUInt8).userinfo.bytes).length :=
    (List.takeWhile_prefix _).length_le
  rw [List.length_append, (s.players i.toUInt8).name.length_eq,
    (s.players i.toUInt8).userinfo.length_eq] at hname
  unfold Q2Server.nameEntry
  rw [List.length_append, hsep]
  omega

-- The state after the names of some players have been formatted.
private def World.named (w : World N) (s : Q2Server) (l : List Nat) : World N :=
  l.foldl (fun w i ↦ w.formatted [.str (.fixed (s.players i.toUInt8).nameStr),
    .text (ascii ", ")]) w

section Named

variable {s : Q2Server} {l : List Nat}

private theorem named_servers (w : World N) : (w.named s l).servers = w.servers := by
  induction l generalizing w with
  | nil => rfl
  | cons i l ih => exact ih _

private theorem named_vaSlot (w : World N) :
    (w.named s l).vaSlot.val = (w.vaIndex.toNat + l.length) % 8 := by
  induction l generalizing w with
  | nil => rfl
  | cons i l ih =>
    have hrest := ih (w.formatted [.str (.fixed (s.players i.toUInt8).nameStr),
      .text (ascii ", ")])
    have hnext := vaIndex_succ w.vaIndex
    change (w.named s (i :: l)).vaSlot.val = ((w.vaIndex + 1).toNat + l.length) % 8 at hrest
    rw [hrest, List.length_cons]
    omega

private theorem entry_string (s : Q2Server) (w : World N) (i : Nat) :
    ([Piece.str (.fixed (s.players i.toUInt8).nameStr), .text (ascii ", ")].flatMap
      (Piece.print w.vaStrings)).take (maxStringChars - 1) = s.nameEntry i := by
  have hprint : [Piece.str (.fixed (s.players i.toUInt8).nameStr), .text (ascii ", ")].flatMap
      (Piece.print w.vaStrings) = s.nameEntry i := by
    simp [Piece.print, CharPtr.deref, Q2Server.nameEntry]
  rw [hprint]
  exact List.take_of_length_le (nameEntry_fits s i)

private theorem named_vaStrings (w : World N) :
    (w.named s l).vaStrings = fillRing w.vaStrings w.vaIndex.toNat (l.map s.nameEntry) := by
  induction l generalizing w with
  | nil => rfl
  | cons i l ih =>
    have hrest := ih (w.formatted [.str (.fixed (s.players i.toUInt8).nameStr),
      .text (ascii ", ")])
    rw [List.map_cons]
    unfold fillRing
    refine hrest.trans ?_
    have hstring := entry_string s w i
    have hslot : w.vaIndex.toNat % 8 = w.vaSlot.val := rfl
    unfold World.formatted
    rw [hstring, writeRing_eq_update _ hslot]
    exact fillRing_congr _ (vaIndex_succ w.vaIndex) _

end Named

private theorem catPlayer_run (q2 : Fin N) (players : List UInt8) (i : Nat) (w : World N) :
    (catPlayer q2 players i).run w =
      if teleportPlayersSize ≤ players.length + ((w.servers q2).nameEntry i).length then
        .error .overwrite (w.named (w.servers q2) [i])
      else .ok (players ++ (w.servers q2).nameEntry i) (w.named (w.servers q2) [i]) := by
  have hserver : (server q2).run w = .ok (w.servers q2) w := rfl
  have hno : Piece.str (.ring w.vaSlot) ∉
      [Piece.str (.fixed ((w.servers q2).players i.toUInt8).nameStr), .text (ascii ", ")] := by
    simp
  have hstring := entry_string (w.servers q2) w i
  have hslot : (w.named (w.servers q2) [i]).vaStrings w.vaSlot = (w.servers q2).nameEntry i := by
    rw [← hstring]
    exact Function.update_self _ _ _
  have hstrAt : (strAt (.ring w.vaSlot)).run (w.named (w.servers q2) [i]) =
      .ok ((w.servers q2).nameEntry i) (w.named (w.servers q2) [i]) := by
    rw [← hslot]
    rfl
  unfold catPlayer
  rw [run_bind_of_ok hserver, run_bind_of_ok (va_run hno)]
  refine (run_bind_of_ok hstrAt).trans ?_
  split
  · rfl
  · rfl

private theorem catPlayers_run (q2 : Fin N) (l : List Nat) (players : List UInt8) (w : World N)
    (hstart : players.length < teleportPlayersSize) :
    if players.length + (l.flatMap (w.servers q2).nameEntry).length < teleportPlayersSize then
      (l.foldlM (catPlayer q2) players).run w =
        .ok (players ++ l.flatMap (w.servers q2).nameEntry) (w.named (w.servers q2) l)
    else ∃ w', (l.foldlM (catPlayer q2) players).run w = .error .overwrite w' := by
  induction l generalizing players w with
  | nil =>
    rw [if_pos (by simpa using hstart)]
    simp [World.named]
  | cons i l ih =>
    have hone := catPlayer_run q2 players i w
    have hservers : (w.named (w.servers q2) [i]).servers q2 = w.servers q2 := rfl
    have hrest (players : List UInt8) := ih players (w.named (w.servers q2) [i])
    rw [hservers] at hrest
    rw [List.flatMap_cons, List.length_append, List.foldlM_cons]
    by_cases hfits : teleportPlayersSize ≤
        players.length + ((w.servers q2).nameEntry i).length
    · rw [if_pos hfits] at hone
      rw [if_neg (by omega), run_bind_of_error hone]
      exact ⟨_, rfl⟩
    · rw [if_neg hfits] at hone
      have hrest := hrest (players ++ (w.servers q2).nameEntry i)
        (by rw [List.length_append]; omega)
      rw [List.length_append, Nat.add_assoc, List.append_assoc] at hrest
      rw [run_bind_of_ok hone]
      exact hrest

private theorem flatMap_separator (sep : List UInt8) (names : List (List UInt8))
    (h : names ≠ []) : names.flatMap (fun name ↦ name ++ sep) = sep.intercalate names ++ sep := by
  induction names with
  | nil => exact absurd rfl h
  | cons name names ih =>
    cases names with
    | nil => simp [List.intercalate]
    | cons name' names =>
      rw [List.flatMap_cons, ih (List.cons_ne_nil _ _)]
      simp [List.intercalate]

private theorem entries_eq {s : Q2Server} (h : 1 ≤ s.playercount.toNat) :
    (List.range s.playercount.toNat).flatMap s.nameEntry = s.joinedNames ++ ascii ", " := by
  have hne : (List.range s.playercount.toNat).map (fun i ↦ (s.players i.toUInt8).nameStr) ≠
      [] := by
    intro hnil
    have hlen := congrArg List.length hnil
    rw [List.length_map, List.length_range, List.length_nil] at hlen
    omega
  have hjoin := flatMap_separator (ascii ", ") _ hne
  rw [List.flatMap_map] at hjoin
  exact hjoin

-- The text collected so far is in the buffer that `va` has written last, if it is in one.
private structure Last (servers : Fin N → Q2Server) (str : CharPtr) (w : World N) : Prop where
  servers : w.servers = servers
  slot : ∀ p : Fin 8, str = .ring p → (p.val + 1) % 8 = w.vaIndex.toNat % 8

-- The line of a server behind the text that `str` points to.
private def lineBehind (str : CharPtr) (s : Q2Server) : List Piece :=
  [.str str, .str (.fixed s.listing), .text (ascii "\n")]

section Server

variable {q2 : Fin N} {str : CharPtr} {w : World N}

private theorem teleportServer_skip (h : (w.servers q2).trusted = false) :
    (teleportServer str q2).run w = .ok str w := by
  have hserver : (server q2).run w = .ok (w.servers q2) w := rfl
  unfold teleportServer
  rw [run_bind_of_ok hserver, if_pos (by simp [h])]
  rfl

private theorem teleportServer_run (str : CharPtr) (ht : (w.servers q2).trusted = true)
    (h : (w.servers q2).Listable) :
    (teleportServer str q2).run w = (va (lineBehind str (w.servers q2))).run
      (w.named (w.servers q2) (List.range (w.servers q2).playercount.toNat)) := by
  have hserver : (server q2).run w = .ok (w.servers q2) w := rfl
  have hsep : (ascii ", ").length = 2 := by decide
  have hnames := catPlayers_run q2 (List.range (w.servers q2).playercount.toNat) [] w (by decide)
  have hentries := entries_eq h.players
  have hfits := h.spare
  rw [hentries, if_pos (by simp only [List.length_append, List.length_nil, hsep]; omega),
    List.nil_append] at hnames
  have hcut : ((w.servers q2).joinedNames ++ ascii ", ").take
      (((w.servers q2).joinedNames ++ ascii ", ").length - 2) =
        (w.servers q2).joinedNames := by
    rw [List.length_append, hsep, Nat.add_sub_cancel, List.take_left]
  have hline : teleportLine (w.servers q2) (w.servers q2).joinedNames =
      (w.servers q2).listing := List.take_of_length_le (Nat.le_sub_one_of_lt h.line)
  unfold teleportServer
  rw [run_bind_of_ok hserver, if_neg (by simp [ht]), run_bind_of_ok hnames,
    if_neg (by rw [List.length_append, hsep]; omega), hcut, hline]
  rfl

/-- The server counts a player, and the names that it counts fit `players`, each with a comma and
a space behind it. -/
structure Q2Server.Seated (s : Q2Server) : Prop where
  players : 1 ≤ s.playercount.toNat
  names : ((List.range s.playercount.toNat).flatMap s.nameEntry).length < teleportPlayersSize

private theorem two_le_entries {s : Q2Server} {n : Nat} (h : 1 ≤ n) :
    2 ≤ ((List.range n).flatMap s.nameEntry).length := by
  obtain ⟨k, rfl⟩ := Nat.exists_eq_add_of_le' h
  have hsep : (ascii ", ").length = 2 := by decide
  rw [List.range_succ, List.flatMap_append, List.flatMap_singleton, List.length_append]
  unfold Q2Server.nameEntry
  rw [List.length_append, hsep]
  omega

/-- The round for a server stores outside `players` exactly if it is trusted and not seated,
whatever text it is given and whatever `va` has written before. -/
theorem teleportServer_overwrite_iff (q2 : Fin N) (str : CharPtr) (w : World N) :
    (∃ w', (teleportServer str q2).run w = .error .overwrite w') ↔
      (w.servers q2).trusted = true ∧ ¬ (w.servers q2).Seated := by
  have hserver : (server q2).run w = .ok (w.servers q2) w := rfl
  have hnames := catPlayers_run q2 (List.range (w.servers q2).playercount.toNat) [] w (by decide)
  rw [List.length_nil, Nat.zero_add, List.nil_append] at hnames
  cases ht : (w.servers q2).trusted with
  | false =>
    rw [teleportServer_skip ht]
    constructor
    · rintro ⟨w', hrun⟩
      cases hrun
    · rintro ⟨h, _⟩
      cases h
  | true =>
    unfold teleportServer
    rw [run_bind_of_ok hserver, if_neg (by simp [ht])]
    by_cases hfits : ((List.range (w.servers q2).playercount.toNat).flatMap
        (w.servers q2).nameEntry).length < teleportPlayersSize
    · rw [if_pos hfits] at hnames
      rw [run_bind_of_ok hnames]
      by_cases hcount : 1 ≤ (w.servers q2).playercount.toNat
      · have hlong := two_le_entries (s := w.servers q2) hcount
        rw [if_neg (by omega)]
        constructor
        · rintro ⟨w', hrun⟩
          cases va_error hrun
        · rintro ⟨_, hno⟩
          exact absurd ⟨hcount, hfits⟩ hno
      · have hzero : (w.servers q2).playercount.toNat = 0 := by omega
        rw [hzero, if_pos (by simp)]
        exact ⟨fun _ ↦ ⟨rfl, fun h ↦ hcount h.players⟩, fun _ ↦ ⟨_, rfl⟩⟩
    · rw [if_neg hfits] at hnames
      obtain ⟨w', herror⟩ := hnames
      rw [run_bind_of_error herror]
      exact ⟨fun _ ↦ ⟨rfl, fun h ↦ hfits h.names⟩, fun _ ↦ ⟨w', rfl⟩⟩

private theorem print_lineBehind (rings : Fin 8 → List UInt8) (s : Q2Server) :
    (lineBehind str s).flatMap (Piece.print rings) =
      str.deref rings ++ (s.listing ++ ascii "\n") := by
  simp [lineBehind, Piece.print, CharPtr.deref]

private theorem named_text {servers : Fin N → Q2Server} (hlast : Last servers str w)
    (h : (w.servers q2).Listable) {p : Fin 8} (hp : str = .ring p) :
    let w' := w.named (w.servers q2) (List.range (w.servers q2).playercount.toNat)
    ((w.servers q2).playercount.toNat ≤ 7 → w'.vaStrings p = w.vaStrings p) ∧
    (8 ≤ (w.servers q2).playercount.toNat → (w'.vaStrings p).length ≤ 16) := by
  have hslot := hlast.slot p hp
  have hpval := p.isLt
  have hstrings := named_vaStrings (s := w.servers q2) w
    (l := List.range (w.servers q2).playercount.toNat)
  dsimp only
  rw [hstrings]
  constructor
  · intro hfew
    apply fillRing_of_ne
    intro j hj
    rw [List.length_map, List.length_range] at hj
    omega
  · intro hmany
    have hmem : fillRing w.vaStrings w.vaIndex.toNat ((List.range
        (w.servers q2).playercount.toNat).map (w.servers q2).nameEntry) p ∈
          (List.range (w.servers q2).playercount.toNat).map (w.servers q2).nameEntry := by
      apply fillRing_mem
      rw [List.length_map, List.length_range]
      exact ⟨7, by omega, by omega⟩
    obtain ⟨i, hi, he⟩ := List.mem_map.mp hmem
    rw [← he]
    exact nameEntry_length (h.names i (List.mem_range.mp hi)).1

-- What the last call of `va` for a server leaves, if the text is not in its destination.
private theorem lineBehind_last {servers : Fin N → Q2Server} {s : Q2Server}
    (hservers : w.servers = servers) (hno : str ≠ .ring w.vaSlot) :
    (va (lineBehind str s)).run w = .ok (.ring w.vaSlot) (w.formatted (lineBehind str s)) ∧
      Last servers (.ring w.vaSlot) (w.formatted (lineBehind str s)) ∧
      (w.formatted (lineBehind str s)).vaStrings w.vaSlot =
        (str.deref w.vaStrings ++ (s.listing ++ ascii "\n")).take (maxStringChars - 1) := by
  refine ⟨va_run ?_, ⟨hservers, fun p hp ↦ ?_⟩, ?_⟩
  · simp [lineBehind, hno.symm]
  · cases hp
    have hnext := vaIndex_succ w.vaIndex
    change (w.vaIndex.toNat % 8 + 1) % 8 = (w.vaIndex + 1).toNat % 8
    omega
  · rw [← print_lineBehind]
    exact Function.update_self _ _ _

-- The text survives the names of a server exactly if there are six at most, or if it is in no
-- buffer of `va` yet.
private theorem teleportServer_cases {servers : Fin N → Q2Server} (hlast : Last servers str w)
    (ht : (w.servers q2).trusted = true) (h : (w.servers q2).Listable) :
    ((w.servers q2).playercount.toNat ≤ 6 ∨ ∀ p, str ≠ .ring p) ∧
      (∃ p w', (teleportServer str q2).run w = .ok (.ring p) w' ∧ Last servers (.ring p) w' ∧
        w'.vaStrings p = (str.deref w.vaStrings ++
          ((w.servers q2).listing ++ ascii "\n")).take (maxStringChars - 1)) ∨
    (7 ≤ (w.servers q2).playercount.toNat ∧ (∃ p, str = .ring p)) ∧
      ∀ str' w', (teleportServer str q2).run w = .ok str' w' →
        ∃ p, str' = .ring p ∧ Last servers (.ring p) w' ∧
          (w'.vaStrings p).length ≤ 16 + ((w.servers q2).listing ++ ascii "\n").length := by
  obtain ⟨w₁, hw₁⟩ : ∃ w₁, w₁ =
      w.named (w.servers q2) (List.range (w.servers q2).playercount.toNat) := ⟨_, rfl⟩
  have hrun := teleportServer_run str ht h
  have hservers : w₁.servers = servers := by
    rw [hw₁, named_servers]
    exact hlast.servers
  have hvaSlot : w₁.vaSlot.val =
      (w.vaIndex.toNat + (w.servers q2).playercount.toNat) % 8 := by
    rw [hw₁, named_vaSlot, List.length_range]
  rw [← hw₁] at hrun
  cases str with
  | fixed text =>
    left
    have hno : CharPtr.fixed text ≠ .ring w₁.vaSlot := nofun
    obtain ⟨hok, hlast', htext⟩ := lineBehind_last (s := w.servers q2) hservers hno
    exact ⟨.inr nofun, _, _, hrun.trans hok, hlast', htext⟩
  | ring p =>
    have hslot := hlast.slot p rfl
    have hpval := p.isLt
    obtain ⟨hfew, hmany⟩ := named_text hlast h rfl
    rw [← hw₁] at hfew hmany
    by_cases hcount : (w.servers q2).playercount.toNat ≤ 6
    · left
      have hno : CharPtr.ring p ≠ .ring w₁.vaSlot := by
        intro he
        have hval := congrArg Fin.val (CharPtr.ring.inj he)
        omega
      obtain ⟨hok, hlast', htext⟩ := lineBehind_last (s := w.servers q2) hservers hno
      refine ⟨.inl hcount, _, _, hrun.trans hok, hlast', ?_⟩
      rw [htext]
      change ((w₁.vaStrings p) ++ _).take _ = ((w.vaStrings p) ++ _).take _
      rw [hfew (by omega)]
    · right
      refine ⟨⟨by omega, p, rfl⟩, fun str' w' hok ↦ ?_⟩
      rw [hrun] at hok
      obtain ⟨hfree, rfl, rfl⟩ := va_ok hok
      have hno : CharPtr.ring p ≠ .ring w₁.vaSlot := fun he ↦ by
        rw [he] at hfree
        exact hfree List.mem_cons_self
      obtain ⟨_, hlast', htext⟩ := lineBehind_last (s := w.servers q2) hservers hno
      refine ⟨_, rfl, hlast', ?_⟩
      have hval : p.val ≠ w₁.vaSlot.val := fun he ↦ hno (by rw [Fin.ext he])
      have hshort := hmany (by omega)
      rw [htext, List.length_take, List.length_append]
      change min _ ((w₁.vaStrings p).length + _) ≤ _
      omega

end Server

-- The lines of some servers, each with a newline behind it.
private def linesOf (servers : List Q2Server) : List UInt8 :=
  servers.flatMap fun s ↦ s.listing ++ ascii "\n"

private theorem linesOf_cons (s : Q2Server) (servers : List Q2Server) (acc : List UInt8) :
    acc ++ linesOf (s :: servers) = acc ++ (s.listing ++ ascii "\n") ++ linesOf servers := by
  unfold linesOf
  rw [List.flatMap_cons, ← List.append_assoc]

private theorem listing_length (s : Q2Server) : 17 ≤ s.listing.length := by
  unfold Q2Server.listing padRight
  simp only [List.length_append, List.length_replicate]
  omega

section Servers

variable {servers : Fin N → Q2Server} {l : List (Fin N)} {q2 : Fin N} {acc : List UInt8}
  {str : CharPtr} {w : World N}

private theorem foldlM_trusted (hservers : w.servers = servers) :
    (l.foldlM teleportServer str).run w =
      ((l.filter fun q2 ↦ (servers q2).trusted).foldlM teleportServer str).run w := by
  induction l generalizing str w with
  | nil => rfl
  | cons q2 l ih =>
    rw [List.foldlM_cons, List.filter_cons]
    cases ht : (servers q2).trusted with
    | false =>
      rw [run_bind_of_ok (teleportServer_skip (by rw [hservers]; exact ht))]
      exact ih hservers
    | true =>
      rw [if_pos rfl, List.foldlM_cons]
      cases hrun : (teleportServer str q2).run w with
      | ok str' w' =>
        rw [run_bind_of_ok hrun, run_bind_of_ok hrun]
        exact ih (((keeps_teleportServer (fun _ _ _ ↦ rfl) str q2).ok hrun).trans hservers)
      | error e w' => rw [run_bind_of_error hrun, run_bind_of_error hrun]

private theorem line_whole {s : Q2Server} {rest : List UInt8}
    (htotal : (acc ++ (s.listing ++ ascii "\n") ++ rest).length < maxStringChars) :
    (acc ++ (s.listing ++ ascii "\n")).take (maxStringChars - 1) =
      acc ++ (s.listing ++ ascii "\n") := by
  apply List.take_of_length_le
  rw [List.length_append] at htotal
  omega

-- A text that has been lost leaves the list too short.
private theorem lost_short {p : CharPtr} (acc : List UInt8) {w' : World N}
    (hlast : Last servers str w)
    (hlong : 17 ≤ acc.length) (hshort : (str.deref w.vaStrings).length < acc.length)
    (hl : ∀ q2 ∈ l, (servers q2).trusted = true ∧ (servers q2).Listable)
    (hrun : (l.foldlM teleportServer str).run w = .ok p w') :
    (p.deref w'.vaStrings).length < (acc ++ linesOf (l.map servers)).length := by
  induction l generalizing str acc w with
  | nil =>
    cases hrun
    simpa [linesOf] using hshort
  | cons q2 l ih =>
    have hself : w.servers q2 = servers q2 := congrFun hlast.servers q2
    obtain ⟨⟨ht, hlist⟩, hrest⟩ := List.forall_mem_cons.mp hl
    rw [← hself] at ht hlist
    rw [List.foldlM_cons] at hrun
    obtain ⟨str', w₁, h₁, hrun⟩ := run_bind_ok hrun
    rw [List.map_cons, linesOf_cons, ← hself]
    rcases teleportServer_cases hlast ht hlist with
      ⟨_, p', w₂, hok, hlast', htext⟩ | ⟨_, hlost⟩
    · rw [hok] at h₁
      cases h₁
      refine ih _ hlast' ?_ ?_ hrest hrun
      · rw [List.length_append]
        omega
      · change (w₁.vaStrings p').length < _
        rw [htext, List.length_take]
        simp only [List.length_append] at hshort ⊢
        omega
    · obtain ⟨p', rfl, hlast', hlen⟩ := hlost _ _ h₁
      refine ih _ hlast' ?_ ?_ hrest hrun
      · rw [List.length_append]
        omega
      · change (w₁.vaStrings p').length < _
        rw [List.length_append]
        omega

-- The loop returns the text so far, and the lines of the servers behind it.
private def Lists (servers : Fin N → Q2Server) (l : List (Fin N)) (str : CharPtr)
    (acc : List UInt8) (w : World N) : Prop :=
  ∃ p w', (l.foldlM teleportServer str).run w = .ok p w' ∧
    p.deref w'.vaStrings = acc ++ linesOf (l.map servers)

private theorem lists_nil (hacc : str.deref w.vaStrings = acc) : Lists servers [] str acc w :=
  ⟨str, w, rfl, hacc.trans (List.append_nil acc).symm⟩

private theorem lists_cons_iff {str' : CharPtr} {w' : World N}
    (hok : (teleportServer str q2).run w = .ok str' w') :
    Lists servers (q2 :: l) str acc w ↔
      Lists servers l str' (acc ++ ((servers q2).listing ++ ascii "\n")) w' := by
  unfold Lists
  rw [List.map_cons, linesOf_cons, List.foldlM_cons, run_bind_of_ok hok]

-- From a text in a buffer of `va` on, the list is right exactly if the remaining servers have six
-- players at most.
private theorem lists_ring_iff {p : Fin 8} (hlast : Last servers (.ring p) w)
    (htext : w.vaStrings p = acc) (hlong : 17 ≤ acc.length)
    (hl : ∀ q2 ∈ l, (servers q2).trusted = true ∧ (servers q2).Listable)
    (htotal : (acc ++ linesOf (l.map servers)).length < maxStringChars) :
    Lists servers l (.ring p) acc w ↔ ∀ q2 ∈ l, (servers q2).playercount.toNat ≤ 6 := by
  induction l generalizing p acc w with
  | nil => exact ⟨fun _ _ hs ↦ (List.not_mem_nil hs).elim, fun _ ↦ lists_nil htext⟩
  | cons q2 l ih =>
    have hself : w.servers q2 = servers q2 := congrFun hlast.servers q2
    obtain ⟨⟨ht, hlist⟩, hrest⟩ := List.forall_mem_cons.mp hl
    rw [List.map_cons, linesOf_cons] at htotal
    rw [List.forall_mem_cons]
    rw [← hself] at ht hlist
    rcases teleportServer_cases hlast ht hlist with
      ⟨hfew, p', w₂, hok, hlast', htext'⟩ | ⟨⟨hmany, _⟩, hlost⟩
    · have hcount : (w.servers q2).playercount.toNat ≤ 6 :=
        hfew.resolve_right fun hno ↦ hno p rfl
      have htext₂ : w₂.vaStrings p' = acc ++ ((servers q2).listing ++ ascii "\n") := by
        rw [htext', hself]
        change (w.vaStrings p ++ _).take _ = _
        rw [htext]
        exact line_whole htotal
      rw [lists_cons_iff hok,
        ih hlast' htext₂ (by rw [List.length_append]; omega) hrest htotal, ← hself]
      exact ⟨fun h ↦ ⟨hcount, h⟩, fun h ↦ h.2⟩
    · rw [hself] at hmany hlost
      constructor
      · rintro ⟨p', w', hrun, hright⟩
        rw [List.foldlM_cons] at hrun
        obtain ⟨str', w₁, h₁, hrun⟩ := run_bind_ok hrun
        obtain ⟨p₁, rfl, hlast', hlen⟩ := hlost _ _ h₁
        have hshort := lost_short (acc ++ ((servers q2).listing ++ ascii "\n"))
          hlast' (by rw [List.length_append]; omega)
          (by change (w₁.vaStrings p₁).length < _; rw [List.length_append]; omega)
          hrest hrun
        rw [hright, List.map_cons, linesOf_cons] at hshort
        exact absurd hshort (Nat.lt_irrefl _)
      · rintro ⟨hcount, _⟩
        omega

-- From a text that `va` has not written on, the first server may have any number of players.
private theorem lists_fixed_iff (text : List UInt8) (hservers : w.servers = servers)
    (hl : ∀ q2 ∈ l, (servers q2).trusted = true ∧ (servers q2).Listable)
    (htotal : (text ++ linesOf (l.map servers)).length < maxStringChars) :
    Lists servers l (.fixed text) text w ↔
      ∀ q2 ∈ l.tail, (servers q2).playercount.toNat ≤ 6 := by
  have hlast : Last servers (.fixed text) w := ⟨hservers, fun p hp ↦ by cases hp⟩
  cases l with
  | nil => exact ⟨fun _ _ hs ↦ (List.not_mem_nil hs).elim, fun _ ↦ lists_nil rfl⟩
  | cons q2 l =>
    have hself : w.servers q2 = servers q2 := congrFun hservers q2
    obtain ⟨⟨ht, hlist⟩, hrest⟩ := List.forall_mem_cons.mp hl
    rw [List.map_cons, linesOf_cons] at htotal
    rw [List.tail_cons]
    rw [← hself] at ht hlist
    rcases teleportServer_cases hlast ht hlist with
      ⟨_, p', w₂, hok, hlast', htext'⟩ | ⟨⟨_, p, hp⟩, _⟩
    · have hline := listing_length (servers q2)
      have htext₂ : w₂.vaStrings p' = text ++ ((servers q2).listing ++ ascii "\n") := by
        rw [htext', hself]
        exact line_whole htotal
      rw [lists_cons_iff hok, lists_ring_iff hlast' htext₂
        (by simp only [List.length_append]; omega) hrest htotal]
    · cases hp

end Servers

/-- When every trusted server can be listed, the list is right exactly if each of them but the
first has six players at most. -/
theorem listsTrusted_iff (w : World N) (h : w.Listable) : w.ListsTrusted ↔ w.Sparse := by
  obtain ⟨l, hids⟩ : ∃ l, l = (serverList N).filter fun q2 ↦ (w.servers q2).trusted := ⟨_, rfl⟩
  have htrusted : w.trustedServers = l.map w.servers := by
    rw [hids]
    exact List.filter_map
  have hl (q2 : Fin N) (hq2 : q2 ∈ l) :
      (w.servers q2).trusted = true ∧ (w.servers q2).Listable := by
    refine ⟨?_, h.servers _ (by rw [htrusted]; exact List.mem_map_of_mem hq2)⟩
    rw [hids] at hq2
    exact (List.mem_filter.mp hq2).2
  have hrun : buildTeleportServers.run w =
      (l.foldlM teleportServer (.fixed (ascii "\n"))).run w := by
    rw [hids]
    exact foldlM_trusted rfl
  have htotal := h.total
  unfold teleportText at htotal
  rw [htrusted] at htotal
  have hiff := lists_fixed_iff (ascii "\n") rfl hl htotal
  unfold World.ListsTrusted teleportText
  rw [hrun, htrusted]
  unfold World.Sparse
  rw [htrusted, ← List.map_tail]
  exact hiff.trans (List.forall_mem_map (P := fun s : Q2Server ↦ s.playercount.toNat ≤ 6)).symm

instance (s : Q2Server) : Decidable s.Listable :=
  decidable_of_iff (1 ≤ s.playercount.toNat ∧
      (∀ i, i < s.playercount.toNat →
        (s.players i.toUInt8).name.Terminated ∧ (s.players i.toUInt8).nameStr ≠ []) ∧
      s.joinedNames.length < teleportPlayersSize ∧ s.listing.length < teleportLineSize)
    ⟨fun h ↦ ⟨h.1, h.2.1, h.2.2.1, h.2.2.2⟩,
      fun h ↦ ⟨h.players, h.names, h.joined, h.line⟩⟩

private def sampleServer (count : UInt8) : Q2Server :=
  { Row.load ⟨1, 5, 0, ascii "s", ascii "h", 27910, true⟩ with
    trusted := true
    playercount := count
    players := fun i ↦ ⟨i, strncpy 15 (ascii "p"), .zero 512⟩ }

-- Two trusted servers, the first with one player, the second with as many as given.
private def samplePlayers (count : UInt8) : World 2 where
  servers q2 := sampleServer (if q2.val = 0 then 1 else count)
  listener := 3
  sockets _ := ⟨0, false, false⟩
  socketCount := 1
  scan := 1
  msg := .zero
  vaStrings _ := []
  vaIndex := 0
  nextHandle := 0
  trace := []

/-- Two trusted servers have three players. -/
theorem listsTrusted_sample : (samplePlayers 2).ListsTrusted := by
  have hlist : (samplePlayers 2).Listable := ⟨by decide +kernel, by decide +kernel⟩
  refine (listsTrusted_iff _ hlist).mpr ?_
  unfold World.Sparse
  decide +kernel

/-- Eight players of the second server cost the first one its line. -/
theorem busy_server_hides_others : ¬ ∀ w : World 2, w.Listable → w.ListsTrusted := by
  intro hall
  have hlist : (samplePlayers 8).Listable := ⟨by decide +kernel, by decide +kernel⟩
  obtain ⟨p, w', hrun, htext⟩ := hall _ hlist
  have hvalue : buildTeleportServers.run' (samplePlayers 8) = some p := by
    unfold EStateM.run'
    rw [hrun]
  have hwrong : (buildTeleportServers.run' (samplePlayers 8)).map (fun p ↦
      p.deref (final buildTeleportServers (samplePlayers 8)).vaStrings) ≠
        some (teleportText (samplePlayers 8).trustedServers) := by decide +kernel
  rw [hvalue, final_of_ok hrun, Option.map_some, htext] at hwrong
  exact hwrong rfl

/-- Every trusted server is seated, and behind the names of each but the first `va` does not come
round to the buffer of the text so far. -/
structure World.Buildable (w : World N) : Prop where
  seated : ∀ s ∈ w.trustedServers, s.Seated
  apart : ∀ s ∈ w.trustedServers.tail, s.playercount.toNat % 8 ≠ 7

section Building

variable {servers : Fin N → Q2Server} {l : List (Fin N)} {q2 : Fin N} {str : CharPtr}
  {w : World N}

private theorem teleportServer_seated (str : CharPtr) (ht : (w.servers q2).trusted = true)
    (h : (w.servers q2).Seated) : ∃ line, (teleportServer str q2).run w =
      (va [.str str, .str (.fixed line), .text (ascii "\n")]).run
        (w.named (w.servers q2) (List.range (w.servers q2).playercount.toNat)) := by
  have hserver : (server q2).run w = .ok (w.servers q2) w := rfl
  have hnames := catPlayers_run q2 (List.range (w.servers q2).playercount.toNat) [] w (by decide)
  have hlong := two_le_entries (s := w.servers q2) h.players
  rw [List.length_nil, Nat.zero_add, List.nil_append, if_pos h.names] at hnames
  unfold teleportServer
  rw [run_bind_of_ok hserver, if_neg (by simp [ht]), run_bind_of_ok hnames, if_neg (by omega)]
  exact ⟨_, rfl⟩

private theorem not_returns_unseated (ht : (w.servers q2).trusted = true)
    (h : ¬ (w.servers q2).Seated) : ¬ Returns (teleportServer str q2) w := by
  obtain ⟨w', hrun⟩ := (teleportServer_overwrite_iff q2 str w).mpr ⟨ht, h⟩
  exact not_returns hrun

private theorem teleportServer_line (hlast : Last servers str w)
    (ht : (servers q2).trusted = true) (h : (servers q2).Seated) :
    if (∃ p, str = .ring p) ∧ (servers q2).playercount.toNat % 8 = 7 then
      ¬ Returns (teleportServer str q2) w
    else ∃ p w', (teleportServer str q2).run w = .ok (.ring p) w' ∧
      Last servers (.ring p) w' := by
  have hself : w.servers q2 = servers q2 := congrFun hlast.servers q2
  rw [← hself] at ht h ⊢
  obtain ⟨line, hrun⟩ := teleportServer_seated str ht h
  obtain ⟨w₁, hw₁⟩ : ∃ w₁, w₁ =
      w.named (w.servers q2) (List.range (w.servers q2).playercount.toNat) := ⟨_, rfl⟩
  have hservers : w₁.servers = servers := by
    rw [hw₁, named_servers]
    exact hlast.servers
  have hvaSlot : w₁.vaSlot.val =
      (w.vaIndex.toNat + (w.servers q2).playercount.toNat) % 8 := by
    rw [hw₁, named_vaSlot, List.length_range]
  rw [← hw₁] at hrun
  have hslot (p : Fin 8) (hp : str = .ring p) :
      p = w₁.vaSlot ↔ (w.servers q2).playercount.toNat % 8 = 7 := by
    have hnext := hlast.slot p hp
    have hlt := p.isLt
    rw [Fin.ext_iff, hvaSlot]
    omega
  have hlast' : Last servers (.ring w₁.vaSlot)
      (w₁.formatted [.str str, .str (.fixed line), .text (ascii "\n")]) := by
    refine ⟨hservers, fun p hp ↦ ?_⟩
    cases hp
    have hnext := vaIndex_succ w₁.vaIndex
    change (w₁.vaIndex.toNat % 8 + 1) % 8 = (w₁.vaIndex + 1).toNat % 8
    omega
  split
  · next hring =>
    obtain ⟨⟨p, hp⟩, hseven⟩ := hring
    rintro ⟨str', w', hok⟩
    obtain ⟨hfree, _⟩ := va_ok (hrun.symm.trans hok)
    apply hfree
    rw [← (hslot p hp).mpr hseven, ← hp]
    exact List.mem_cons_self
  · next hring =>
    refine ⟨_, _, hrun.trans (va_run ?_), hlast'⟩
    simp only [List.mem_cons, Piece.str.injEq, reduceCtorEq, List.not_mem_nil, or_false]
    exact fun hp ↦ hring ⟨⟨_, hp.symm⟩, (hslot _ hp.symm).mp rfl⟩

-- From a text in a buffer of `va` the loop returns if no line goes to the buffer of the text before
-- it.
private theorem builds_ring_iff {p : Fin 8} (hlast : Last servers (.ring p) w)
    (hl : ∀ q2 ∈ l, (servers q2).trusted = true) :
    Returns (l.foldlM teleportServer (.ring p)) w ↔
      ∀ q2 ∈ l, (servers q2).Seated ∧ (servers q2).playercount.toNat % 8 ≠ 7 := by
  induction l generalizing p w with
  | nil => exact ⟨fun _ _ h ↦ (List.not_mem_nil h).elim, fun _ ↦ ⟨_, w, rfl⟩⟩
  | cons q2 l ih =>
    obtain ⟨ht, hrest⟩ := List.forall_mem_cons.mp hl
    rw [List.foldlM_cons, List.forall_mem_cons]
    by_cases hseated : (servers q2).Seated
    · have hline := teleportServer_line hlast ht hseated
      split at hline
      · next hring => exact ⟨fun h ↦ absurd h.of_bind hline, fun h ↦ absurd hring.2 h.1.2⟩
      · next hring =>
        obtain ⟨p', w', hrun, hlast'⟩ := hline
        rw [returns_bind_of_ok hrun, ih hlast' hrest]
        exact ⟨fun h ↦ ⟨⟨hseated, fun hseven ↦ hring ⟨⟨p, rfl⟩, hseven⟩⟩, h⟩, fun h ↦ h.2⟩
    · have hself : w.servers q2 = servers q2 := congrFun hlast.servers q2
      rw [← hself] at ht hseated
      refine ⟨fun h ↦ absurd h.of_bind (not_returns_unseated ht hseated), fun h ↦ ?_⟩
      rw [hself] at hseated
      exact absurd h.1.1 hseated

-- From a text that `va` has not written on, the first line may go to any buffer.
private theorem builds_fixed_iff (text : List UInt8) (hservers : w.servers = servers)
    (hl : ∀ q2 ∈ l, (servers q2).trusted = true) :
    Returns (l.foldlM teleportServer (.fixed text)) w ↔ (∀ q2 ∈ l, (servers q2).Seated) ∧
      ∀ q2 ∈ l.tail, (servers q2).playercount.toNat % 8 ≠ 7 := by
  have hlast : Last servers (.fixed text) w := ⟨hservers, fun p hp ↦ by cases hp⟩
  cases l with
  | nil =>
    exact ⟨fun _ ↦ ⟨fun _ h ↦ (List.not_mem_nil h).elim, fun _ h ↦ (List.not_mem_nil h).elim⟩,
      fun _ ↦ ⟨_, w, rfl⟩⟩
  | cons q2 l =>
    obtain ⟨ht, hrest⟩ := List.forall_mem_cons.mp hl
    rw [List.foldlM_cons, List.forall_mem_cons, List.tail_cons]
    by_cases hseated : (servers q2).Seated
    · have hline := teleportServer_line hlast ht hseated
      rw [if_neg (fun h ↦ by obtain ⟨⟨p, hp⟩, _⟩ := h; cases hp)] at hline
      obtain ⟨p', w', hrun, hlast'⟩ := hline
      rw [returns_bind_of_ok hrun, builds_ring_iff hlast' hrest]
      constructor
      · exact fun h ↦ ⟨⟨hseated, fun s hs ↦ (h s hs).1⟩, fun s hs ↦ (h s hs).2⟩
      · exact fun h s hs ↦ ⟨h.1.2 s hs, h.2 s hs⟩
    · have hself : w.servers q2 = servers q2 := congrFun hservers q2
      rw [← hself] at ht hseated
      refine ⟨fun h ↦ absurd h.of_bind (not_returns_unseated ht hseated), fun h ↦ ?_⟩
      rw [hself] at hseated
      exact absurd h.1.1 hseated

end Building

/-- `BuildTeleportServers` returns exactly if every trusted server has a player and its names fit,
and the number of players of none but the first is seven modulo eight. -/
theorem buildTeleportServers_returns_iff (w : World N) :
    Returns buildTeleportServers w ↔ w.Buildable := by
  obtain ⟨l, hids⟩ : ∃ l, l = (serverList N).filter fun q2 ↦ (w.servers q2).trusted := ⟨_, rfl⟩
  have htrusted : w.trustedServers = l.map w.servers := by
    rw [hids]
    exact List.filter_map
  have hl (q2 : Fin N) (hq2 : q2 ∈ l) : (w.servers q2).trusted = true := by
    rw [hids] at hq2
    exact (List.mem_filter.mp hq2).2
  have hrun : buildTeleportServers.run w =
      (l.foldlM teleportServer (.fixed (ascii "\n"))).run w := by
    rw [hids]
    exact foldlM_trusted rfl
  rw [returns_congr hrun, builds_fixed_iff (ascii "\n") rfl hl]
  constructor
  · rintro ⟨hseated, hapart⟩
    refine ⟨?_, ?_⟩
    · rw [htrusted]
      exact List.forall_mem_map.mpr hseated
    · rw [htrusted, ← List.map_tail]
      exact List.forall_mem_map.mpr hapart
  · rintro ⟨hseated, hapart⟩
    rw [htrusted] at hseated hapart
    rw [← List.map_tail] at hapart
    exact ⟨List.forall_mem_map.mp hseated, fun q2 hq2 ↦ hapart _ (List.mem_map_of_mem hq2)⟩

end Q2Admin
