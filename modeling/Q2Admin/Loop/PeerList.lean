import Q2Admin.Loop.PollTable
import Q2Admin.Base.Parser
import Mathlib.Data.List.Forall2

/-!
# The list that a peer gets

Library `Q2Admin.Loop`. Source `peer.c`. The list is a 16-bit count and, for every server
that is connected and trusted, four bytes of address, a 16-bit port and a string.
`peerServers` is a parser of that format; what `P_GetServerList` sends is parsed to the
announced servers, and to its end.
-/

namespace Q2Admin

open Exec ByteParser

variable {N : Nat}

/-- A 16-bit value, the low byte first. -/
def ByteParser.short : ByteParser UInt16 := do
  let b0 ← byte
  let b1 ← byte
  pure (b0.toUInt16 + (b1.toUInt16 <<< 8))

private theorem parses_short (s : UInt16) : Parses short (shortBytes s) s := by
  have hhigh := parses_map (fun b1 : UInt8 ↦ (s &&& 0xff).toUInt8.toUInt16 + (b1.toUInt16 <<< 8))
    (parses_byte (s >>> 8).toUInt8)
  rw [short_recombine] at hhigh
  unfold short shortBytes
  rw [← List.singleton_append]
  exact parses_bind (parses_byte _) hhigh

/-- What the list says about a server. -/
structure PeerEntry where
  address : Field 4
  port : UInt16
  name : List UInt8
  deriving DecidableEq

/-- The parser of an entry. -/
def peerServer : ByteParser PeerEntry := do
  let address ← field 4
  let port ← short
  let name ← ByteParser.string
  pure ⟨address, port, name⟩

/-- The parser of the list. -/
def peerServers : ByteParser (List PeerEntry) := do
  let count ← short
  times peerServer count.toNat

/-- The bytes of an entry. -/
def PeerEntry.wire (e : PeerEntry) : List UInt8 :=
  e.address.bytes ++ (shortBytes e.port ++ (e.name ++ [0]))

private theorem parses_peerServer {e : PeerEntry} (h : (0 : UInt8) ∉ e.name) :
    Parses peerServer e.wire e := by
  apply parses_bind (parses_field e.address)
  apply parses_bind (parses_short e.port)
  exact parses_map (fun name ↦ PeerEntry.mk e.address e.port name) (parses_string h)

/-- The bytes of a list. -/
def peerWire (es : List PeerEntry) : List UInt8 :=
  shortBytes es.length.toUInt16 ++ es.flatMap PeerEntry.wire

private theorem parses_peerServers {es : List PeerEntry} (hlen : es.length < 0x10000)
    (h : ∀ e ∈ es, (0 : UInt8) ∉ e.name) : Parses peerServers (peerWire es) es := by
  have hcount : es.length.toUInt16.toNat = es.length := by
    rw [Nat.toUInt16, UInt16.toNat_ofNat']
    exact Nat.mod_eq_of_lt hlen
  have hentries := parses_times fun e he ↦ parses_peerServer (h e he)
  rw [List.map_id', ← hcount] at hentries
  exact parses_bind (parses_short es.length.toUInt16) hentries

/-- The entry of a server. -/
def Q2Server.peerEntry (c : Crypto) (s : Q2Server) : PeerEntry :=
  ⟨c.inetPton s.ipStr, s.port, s.nameStr⟩

private theorem writes_peerList (c : Crypto) (servers : List Q2Server) :
    Writes (peerList c servers) (peerWire (servers.map (Q2Server.peerEntry c))) := by
  have hentry (s : Q2Server) : Writes (do
      msgWriteData (c.inetPton s.ipStr).bytes 4
      msgWriteShort s.port
      msgWriteString (some s.nameStr)) (s.peerEntry c).wire := by
    apply writes_bind (writes_field (c.inetPton s.ipStr))
    exact writes_bind (writes_short s.port) (writes_string s.nameStr)
  have hentries := writes_forM fun s (_ : s ∈ servers) ↦ hentry s
  have h := writes_bind (writes_short servers.length.toUInt16) hentries
  unfold peerWire
  rw [List.length_map, List.flatMap_map]
  exact h

/-- The servers that are announced to peers, in list order; `peer.c:24`, `peer.c:34`. -/
def World.announced (w : World N) : List Q2Server :=
  ((serverList N).map w.servers).filter fun s ↦ s.connected && s.trusted

/-- The size of their list: the count, and for each server seven bytes and its name. -/
def World.announcedSize (w : World N) : Nat :=
  2 + 7 * w.announced.length + (w.announced.flatMap Q2Server.nameStr).length

private theorem entries_wire_length (c : Crypto) (l : List Q2Server) :
    ((l.map (Q2Server.peerEntry c)).flatMap PeerEntry.wire).length =
      7 * l.length + (l.flatMap Q2Server.nameStr).length := by
  induction l with
  | nil => rfl
  | cons s l ih =>
    have hone : (s.peerEntry c).wire.length = 7 + s.nameStr.length := by
      simp only [PeerEntry.wire, Q2Server.peerEntry, List.length_append,
        (c.inetPton s.ipStr).length_eq, List.length_singleton]
      change 4 + (2 + (s.nameStr.length + 1)) = _
      omega
    simp only [List.map_cons, List.flatMap_cons, List.length_append, List.length_cons, ih, hone]
    omega

/-- What is sent to a peer is as long as announced. -/
theorem peerWire_length (c : Crypto) (w : World N) :
    (peerWire (w.announced.map (Q2Server.peerEntry c))).length = w.announcedSize := by
  unfold peerWire World.announcedSize
  rw [List.length_append, entries_wire_length, Nat.add_assoc]
  rfl

private theorem announced_length_le (w : World N) :
    7 * w.announced.length ≤ w.announcedSize := by
  unfold World.announcedSize
  omega

/-- The state after these bytes have been sent to the peer in a slot and its socket has been
closed. -/
def World.dismissed (w : World N) (index : Nat) (wire : List UInt8) : World N :=
  let fd := (w.sockets index).fd
  { w with trace := .closed fd :: .sent fd wire wire :: w.trace }

/-- What `P_GetServerList` does when the list fits its buffer. -/
theorem pGetServerList_run (c : Crypto) {w : World N} (index : Nat)
    (h : w.announcedSize ≤ msgSize) :
    (pGetServerList c index).run w =
      .ok () (w.dismissed index (peerWire (w.announced.map (Q2Server.peerEntry c)))) := by
  have hwrite : (peerList c w.announced).run .zero =
      .ok () (.ofBytes (peerWire (w.announced.map (Q2Server.peerEntry c)))) :=
    writes_peerList c w.announced [] (by rw [peerWire_length]; simpa using h)
  have hget : (get : M N (World N)).run w = .ok w w := rfl
  unfold World.announced at hwrite
  unfold pGetServerList
  rw [run_bind_of_ok hget]
  dsimp only
  rw [hwrite]
  dsimp only
  rw [MsgBuffer.contents_ofBytes]
  rfl

/-- An IPv4 address in dotted decimal form. -/
def dotted (a : Field 4) : List UInt8 :=
  (ascii ".").intercalate (a.bytes.map fun b ↦ decimal b.toNat)

/-- The value of decimal digits. -/
def ofDecimal (digits : List UInt8) : UInt8 := digits.foldl (fun n d ↦ 10 * n + (d - 0x30)) 0

/-- The address that is written so, and some address for other strings. -/
def ofDotted (s : List UInt8) : Field 4 :=
  let bs := (s.splitOn 0x2e).map ofDecimal
  if h : bs.length = 4 then ⟨bs, h⟩ else .zero 4

private theorem ofDotted_dotted (a : Field 4) : ofDotted (dotted a) = a := by
  have hdigits : ∀ n < 256, 0x2e ∉ decimal n ∧ ofDecimal (decimal n) = n.toUInt8 := by
    decide +kernel
  have hpieces : (dotted a).splitOn 0x2e = a.bytes.map fun b ↦ decimal b.toNat := by
    apply List.splitOn_intercalate
    · intro l hl
      obtain ⟨b, _, rfl⟩ := List.mem_map.mp hl
      exact (hdigits b.toNat b.toNat_lt).1
    · intro hnil
      have hlen := a.length_eq
      rw [List.map_eq_nil_iff.mp hnil] at hlen
      cases hlen
  have hbytes : ((dotted a).splitOn 0x2e).map ofDecimal = a.bytes := by
    rw [hpieces, List.map_map]
    conv_rhs => rw [← List.map_id a.bytes]
    apply List.map_congr_left
    intro b _
    exact (hdigits b.toNat b.toNat_lt).2.trans (UInt8.ofNat_toNat)
  unfold ofDotted
  simp only [hbytes, a.length_eq, ↓reduceDIte]

/-- A peer reads about a server what its record says. -/
structure PeerEntry.Describes (e : PeerEntry) (s : Q2Server) : Prop where
  address : dotted e.address = s.ipStr
  port : e.port = s.port
  name : e.name = s.nameStr

/-- What `P_GetServerList` sends is parsed, to its last byte, to the connected and trusted
servers in list order. -/
theorem peer_reads_servers (c : Crypto) (w : World N) (index : Nat)
    (hpton : ∀ a : Field 4, c.inetPton (dotted a) = a)
    (hip : ∀ s ∈ w.announced, ∃ a, s.ipStr = dotted a)
    (hfits : w.announcedSize ≤ msgSize) :
    ∃ wire es, (pGetServerList c index).run w = .ok () (w.dismissed index wire) ∧
      peerServers.run wire = some (es, []) ∧ List.Forall₂ PeerEntry.Describes es w.announced := by
  have hlen : w.announced.length < 0x10000 := by
    have h := announced_length_le w
    have hsize : msgSize = 65535 := rfl
    omega
  have hparse : Parses peerServers (peerWire (w.announced.map (Q2Server.peerEntry c)))
      (w.announced.map (Q2Server.peerEntry c)) := by
    apply parses_peerServers (by rwa [List.length_map])
    intro e he
    obtain ⟨s, _, rfl⟩ := List.mem_map.mp he
    exact nul_notMem_cstr s.name.bytes
  refine ⟨_, _, pGetServerList_run c index hfits, hparse.run, ?_⟩
  rw [List.forall₂_map_left_iff, List.forall₂_same]
  intro s hs
  obtain ⟨a, ha⟩ := hip s hs
  refine ⟨?_, rfl, rfl⟩
  change dotted (c.inetPton s.ipStr) = s.ipStr
  rw [ha, hpton]

-- Of the three servers the second one is connected but not trusted.
private def samplePeer : World 3 :=
  let w := initial (fun s ↦ ⟨1, s.val.toUInt32, 0, ascii "s", ascii "h", 27910, true⟩) 3
    fun _ ↦ ⟨0, false, false⟩
  { w with
    servers := fun s ↦
      { w.servers s with
        connected := true, trusted := s ≠ 1,
        ip := strncpy 16 (if s = 2 then ascii "192.168.1.2" else ascii "10.0.0.7") } }

private theorem samplePeer_announced :
    samplePeer.announced = [samplePeer.servers 0, samplePeer.servers 2] := rfl

private theorem samplePeer_ip : (samplePeer.servers 0).ipStr = dotted ⟨[10, 0, 0, 7], rfl⟩ ∧
    (samplePeer.servers 2).ipStr = dotted ⟨[192, 168, 1, 2], rfl⟩ := by
  decide

/-- Two of three servers are trusted, and are read back. -/
theorem peer_reads_servers_sample :
    ∃ wire es, (pGetServerList { Crypto.clear with inetPton := ofDotted } 1).run samplePeer =
        .ok () (samplePeer.dismissed 1 wire) ∧
      peerServers.run wire = some (es, []) ∧
      List.Forall₂ PeerEntry.Describes es samplePeer.announced := by
  apply peer_reads_servers
  · exact ofDotted_dotted
  · intro s hs
    rw [samplePeer_announced] at hs
    rcases List.mem_pair.mp hs with rfl | rfl
    · exact ⟨_, samplePeer_ip.1⟩
    · exact ⟨_, samplePeer_ip.2⟩
  · unfold World.announcedSize
    rw [samplePeer_announced]
    decide

end Q2Admin
