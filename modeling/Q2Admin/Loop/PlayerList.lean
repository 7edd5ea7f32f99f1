import Q2Admin.Loop.Dispatch
import Q2Admin.Loop.Strings
import Mathlib.Data.List.Nodup

/-!
# The loop of PLAYERLIST

Library `Q2Admin.Loop`. Source `parse.c:328–349`. `ParsePlayerList` reads the id of an entry
into its loop variable, so the ids decide how many entries are read, and each entry goes to
the slot behind the id before it. The loop ends at the first id that is the count less one,
or more; the listing is entered as it was sent exactly if its ids are counted from zero.
-/

namespace Q2Admin

open Exec

variable {N : Nat}

/-- An entry is listed unless its userinfo string overruns a buffer of
`Info_ValueForKey`. -/
theorem listPlayer_returns_iff (q2 : Fin N) (slot clientId : UInt8) (userinfo : List UInt8)
    (w : World N) : (∃ w', (listPlayer q2 slot clientId userinfo).run w = .ok () w') ↔
      ∃ name, infoValueForKey userinfo nameKey = .ok name := by
  have hfirst : (modifyServer q2 fun s ↦ s.setPlayer slot (Player.make clientId [] userinfo)).run
      w = .ok () (w.updateServer q2 fun s ↦
        s.setPlayer slot (Player.make clientId [] userinfo)) := rfl
  unfold listPlayer
  rw [run_bind_of_ok hfirst]
  cases infoValueForKey userinfo nameKey with
  | ok name => exact ⟨fun _ ↦ ⟨name, rfl⟩, fun _ ↦ ⟨_, rfl⟩⟩
  | error e =>
    constructor
    · rintro ⟨w', h⟩
      cases h
    · rintro ⟨name, h⟩
      cases h

/-- Listed players are entered exactly if the name in each userinfo string is found. -/
theorem execEntries_returns_iff (q2 : Fin N) (i : UInt8) (entries : List (UInt8 × List UInt8))
    (w : World N) : (∃ w', (execEntries q2 i entries).run w = .ok () w') ↔
      ∀ e ∈ entries, ∃ name, infoValueForKey e.2 nameKey = .ok name := by
  induction entries generalizing i w with
  | nil => exact ⟨fun _ e he ↦ absurd he List.not_mem_nil, fun _ ↦ ⟨w, rfl⟩⟩
  | cons e entries ih =>
    rw [List.forall_mem_cons]
    constructor
    · rintro ⟨w', h⟩
      obtain ⟨_, w₁, h₁, h⟩ := run_bind_ok h
      exact ⟨(listPlayer_returns_iff q2 i e.1 e.2 w).mp ⟨w₁, h₁⟩, (ih (e.1 + 1) w₁).mp ⟨w', h⟩⟩
    · rintro ⟨he, hrest⟩
      obtain ⟨w₁, h₁⟩ := (listPlayer_returns_iff q2 i e.1 e.2 w).mpr he
      obtain ⟨w', h⟩ := (ih (e.1 + 1) w₁).mpr hrest
      exact ⟨w', (run_bind_of_ok h₁).trans h⟩

/-- What a loop that ended has read, and what it has left. -/
theorem countedLoop_ok_iff {q2 : Fin N} {count : UInt8} {fuel : Nat} {i : UInt8}
    {w w' : World N} : (countedLoop q2 count fuel i).run w = .ok () w' ↔
      ∃ entries : List (UInt8 × Text), Drives count i entries ∧ entries.length < fuel ∧
        Stands w.msg (entriesWire entries) ∧
        (∀ e ∈ entries, e.2.Fits ∧ ∃ name, infoValueForKey e.2.value nameKey = .ok name) ∧
        w' = { w with msg := w.msg.advance (entriesWire entries).length }.updateServer q2 fun s ↦
          { s with players := fill i (entriesValue entries) s.players } := by
  rw [countedLoop_splits q2 count fuel i w () w']
  constructor
  · rintro ⟨es, m, hr, hex⟩
    obtain ⟨_, ⟨entries, hd, hf, hlen, rfl, rfl⟩, hst, rfl⟩ :=
      (decodes_entries count fuel i w.msg es m).mp hr
    have hinfo := (execEntries_returns_iff q2 i _ _).mp ⟨w', hex⟩
    refine ⟨entries, hd, hlen, hst, ?_, execEntries_ok hex⟩
    intro e he
    exact ⟨hf e he, hinfo (e.1, e.2.value) (List.mem_map_of_mem he)⟩
  · rintro ⟨entries, hd, hlen, hst, hok, rfl⟩
    have hr := (decodes_entries count fuel i w.msg _ _).mpr
      ⟨entriesWire entries, ⟨entries, hd, fun e he ↦ (hok e he).1, hlen, rfl, rfl⟩, hst, rfl⟩
    have hinfo : ∀ e ∈ entriesValue entries, ∃ name, infoValueForKey e.2 nameKey = .ok name := by
      intro e he
      obtain ⟨e', he', rfl⟩ := List.mem_map.mp he
      exact (hok e' he').2
    obtain ⟨w', hex⟩ := (execEntries_returns_iff q2 i _
      (inMsg.set (w.msg.advance (entriesWire entries).length) w)).mpr hinfo
    refine ⟨_, _, hr, ?_⟩
    rw [hex, execEntries_ok hex]
    rfl

/-- The loop variable reaches the count with the first id that is the count less one, or
more. -/
theorem exists_of_drives {n i : UInt8} {entries : List (UInt8 × Text)} (hi : i < n)
    (h : Drives n i entries) : ∃ e ∈ entries, n ≤ e.1 + 1 := by
  induction entries generalizing i with
  | nil => exact absurd hi h
  | cons e entries ih =>
    by_cases hnext : e.1 + 1 < n
    · obtain ⟨e', he', hle⟩ := ih hnext h.2
      exact ⟨e', List.mem_cons_of_mem e he', hle⟩
    · exact ⟨e, List.mem_cons_self, UInt8.not_lt.mp hnext⟩

/-- The entries up to such an id. -/
theorem drives_of_exists {n i : UInt8} {entries : List (UInt8 × Text)} (hi : i < n)
    (h : ∃ e ∈ entries, n ≤ e.1 + 1) :
    ∃ first rest, entries = first ++ rest ∧ Drives n i first := by
  induction entries generalizing i with
  | nil =>
    obtain ⟨e, he, _⟩ := h
    exact absurd he List.not_mem_nil
  | cons e entries ih =>
    by_cases hnext : e.1 + 1 < n
    · have hrest : ∃ e ∈ entries, n ≤ e.1 + 1 := by
        obtain ⟨e', he', hle⟩ := h
        rcases List.mem_cons.mp he' with rfl | he'
        · exact absurd hnext (UInt8.not_lt.mpr hle)
        · exact ⟨e', he', hle⟩
      obtain ⟨first, rest, rfl, hd⟩ := ih hnext hrest
      exact ⟨e :: first, rest, rfl, hi, hd⟩
    · exact ⟨[e], entries, rfl, hi, hnext⟩

/-- With the count `n` read, the loop ends after at most `n` rounds, and the cursor is inside
`data` then. -/
def EndsWithin (q2 : Fin N) (n : UInt8) (w : World N) : Prop :=
  ∃ w', (playerListLoop q2 (n.toNat + 1) 0).run
      (w.updateServer q2 fun s ↦ { s with playercount := n }) = .ok () w' ∧
    w'.msg.index ≤ msgSize

/-- Among the first `n` entries from the cursor on, none of which overruns a buffer, there is
one whose id is `n - 1` or more, and they end inside `data`. -/
def MsgBuffer.Countable (m : MsgBuffer) (n : UInt8) : Prop :=
  ∃ entries : List (UInt8 × Text), entries.length ≤ n.toNat ∧
    Stands m (entriesWire entries) ∧ m.index + (entriesWire entries).length ≤ msgSize ∧
    (∀ e ∈ entries, e.2.Fits ∧ ∃ name, infoValueForKey e.2.value nameKey = .ok name) ∧
    (n = 0 ∨ ∃ e ∈ entries, n ≤ e.1 + 1)

private theorem entriesWire_append (entries entries' : List (UInt8 × Text)) :
    entriesWire (entries ++ entries') = entriesWire entries ++ entriesWire entries' :=
  List.flatMap_append

/-- The loop of `ParsePlayerList` ends in time exactly on these messages. -/
theorem endsWithin_iff (q2 : Fin N) (n : UInt8) (w : World N) :
    EndsWithin q2 n w ↔ w.msg.Countable n := by
  have hcount : ((w.updateServer q2 fun s ↦ { s with playercount := n }).servers
      q2).playercount = n := by simp
  unfold EndsWithin
  simp only [playerListLoop_run (n.toNat + 1) hcount]
  constructor
  · rintro ⟨w', h, hin⟩
    obtain ⟨entries, hd, hlen, hst, hok, rfl⟩ := countedLoop_ok_iff.mp h
    have hidx : w.msg.index + (entriesWire entries).length ≤ msgSize := by
      rw [← MsgBuffer.advance_index]
      exact hin
    refine ⟨entries, by omega, hst, hidx, hok, ?_⟩
    by_cases hn : n = 0
    · exact .inl hn
    · exact .inr (exists_of_drives (UInt8.pos_iff_ne_zero.mpr hn) hd)
  · rintro ⟨entries, hlen, hst, hidx, hok, hreach⟩
    have hcut : ∃ first rest, entries = first ++ rest ∧ Drives n 0 first := by
      by_cases hn : n = 0
      · exact ⟨[], entries, rfl, by rw [hn]; exact UInt8.not_lt.mpr (Nat.le_refl _)⟩
      · exact drives_of_exists (UInt8.pos_iff_ne_zero.mpr hn) (hreach.resolve_left hn)
    obtain ⟨first, rest, rfl, hd⟩ := hcut
    rw [entriesWire_append] at hst hidx
    rw [List.length_append] at hlen hidx
    refine ⟨_, countedLoop_ok_iff.mpr ⟨first, hd, by omega, (stands_append.mp hst).1,
      fun e he ↦ hok e (List.mem_append_left rest he), rfl⟩, ?_⟩
    change (w.msg.advance (entriesWire first).length).index ≤ msgSize
    rw [MsgBuffer.advance_index]
    omega

/-- There the loop of `ParsePlayerList` itself ends, which has no count of its rounds. -/
theorem parsePlayerList_of_endsWithin {q2 : Fin N} {n : UInt8} {w : World N} {m : MsgBuffer}
    (hread : msgReadByte.run w.msg = .ok n m) (h : EndsWithin q2 n { w with msg := m }) :
    ∃ w', (parsePlayerList q2).run w = .ok () w' ∧ w'.msg.index ≤ msgSize := by
  have hcount : (({ w with msg := m }.updateServer q2 fun s ↦
      { s with playercount := n }).servers q2).playercount = n := by simp
  obtain ⟨w', hrun, hin⟩ := h
  rw [playerListLoop_run _ hcount] at hrun
  obtain ⟨entries, hd, _, hst, hok, hw⟩ := countedLoop_ok_iff.mp hrun
  have hrun' : (countedLoop q2 n msgSpace 0).run ({ w with msg := m }.updateServer q2 fun s ↦
      { s with playercount := n }) = .ok () w' :=
    countedLoop_ok_iff.mpr ⟨entries, hd, entries_length_lt hst, hst, hok, hw⟩
  rw [← playerListLoop_run _ hcount] at hrun'
  have hbyte := run_zoom_of_ok (l := inMsg) (s := w) hread
  have hassign : (modifyServer q2 fun s ↦ { s with playercount := n }).run { w with msg := m } =
      .ok () ({ w with msg := m }.updateServer q2 fun s ↦ { s with playercount := n }) := rfl
  refine ⟨w', ?_, hin⟩
  exact (run_bind_of_ok hbyte).trans ((run_bind_of_ok hassign).trans hrun')

-- A PLAYERLIST of two players, cut off behind its count.
private def sampleCutOff : World 1 :=
  { sampleStart with msg := { MsgBuffer.received [ClientCmd.playerlist.byte, 2] with index := 2 } }

private theorem sampleCutOff_zero {k : Nat} (hk : 2 ≤ k) : sampleCutOff.msg.byteAt k = 0 := by
  change [ClientCmd.playerlist.byte, 2].getD k 0 = 0
  rw [List.getD_eq_getElem?_getD, List.getElem?_eq_none hk]
  rfl

/-- Behind the message only zeros are read, so the loop variable is one after every round. It
ends neither in time nor later. -/
theorem cutOff_never_ends :
    (∀ fuel w', (playerListLoop 0 fuel 0).run
      (sampleCutOff.updateServer 0 fun s ↦ { s with playercount := 2 }) ≠ .ok () w') ∧
    ¬ EndsWithin 0 2 sampleCutOff := by
  have hnever (fuel : Nat) (w' : World 1) : (playerListLoop 0 fuel 0).run
      (sampleCutOff.updateServer 0 fun s ↦ { s with playercount := 2 }) ≠ .ok () w' := by
    intro h
    rw [playerListLoop_run fuel rfl] at h
    obtain ⟨entries, hd, _, hst, _⟩ := countedLoop_ok_iff.mp h
    obtain ⟨e, he, hle⟩ := exists_of_drives (by decide) hd
    have hmem : e.1 ∈ entriesWire entries :=
      List.mem_flatMap.mpr ⟨e, he, List.mem_cons_self⟩
    rw [← hst.1] at hmem
    obtain ⟨k, _, hk⟩ := List.mem_map.mp hmem
    have hzero : e.1 = 0 := hk.symm.trans (sampleCutOff_zero (Nat.le_add_right 2 k))
    rw [hzero] at hle
    exact absurd hle (by decide)
  refine ⟨hnever, ?_⟩
  rintro ⟨w', h, _⟩
  exact hnever _ w' h

/-- The loop variable in round `k`, when the loop is entered with `i` and reads these ids. -/
def slotOf : UInt8 → List UInt8 → Nat → UInt8
  | i, _, 0 => i
  | i, [], _ + 1 => i
  | _, id :: ids, k + 1 => slotOf (id + 1) ids k

private theorem slotOf_succ (i : UInt8) {ids : List UInt8} {k : Nat} (hk : k < ids.length) :
    slotOf i ids (k + 1) = ids[k] + 1 := by
  induction ids generalizing i k with
  | nil => exact absurd hk (Nat.not_lt_zero k)
  | cons id ids ih =>
    cases k with
    | zero =>
      rw [slotOf]
      cases ids <;> rfl
    | succ k => exact ih (id + 1) (Nat.lt_of_succ_lt_succ hk)

/-- The loop goes on in every round but the last. -/
theorem drives_iff {n i : UInt8} {entries : List (UInt8 × Text)} :
    Drives n i entries ↔
      (∀ k < entries.length, slotOf i (entries.map Prod.fst) k < n) ∧
        n ≤ slotOf i (entries.map Prod.fst) entries.length := by
  induction entries generalizing i with
  | nil =>
    constructor
    · intro h
      exact ⟨fun k hk ↦ absurd hk (Nat.not_lt_zero k), UInt8.not_lt.mp h⟩
    · intro h
      exact UInt8.not_lt.mpr h.2
  | cons e entries ih =>
    constructor
    · rintro ⟨hi, hd⟩
      obtain ⟨hlt, hle⟩ := ih.mp hd
      refine ⟨?_, hle⟩
      intro k hk
      cases k with
      | zero => exact hi
      | succ k => exact hlt k (Nat.lt_of_succ_lt_succ hk)
    · rintro ⟨hlt, hle⟩
      exact ⟨hlt 0 (Nat.succ_pos _), ih.mpr ⟨fun k hk ↦ hlt (k + 1) (Nat.succ_lt_succ hk), hle⟩⟩

/-- A slot that is in no round the loop variable keeps its player. -/
theorem fill_of_ne {i s : UInt8} {entries : List (UInt8 × List UInt8)} (players : UInt8 → Player)
    (h : ∀ k < entries.length, slotOf i (entries.map Prod.fst) k ≠ s) :
    fill i entries players s = players s := by
  induction entries generalizing i players with
  | nil => rfl
  | cons e entries ih =>
    have hi : s ≠ i := (h 0 (Nat.succ_pos _)).symm
    rw [fill, ih _ fun k hk ↦ h (k + 1) (Nat.succ_lt_succ hk), Function.update_of_ne hi]

/-- The last entry that goes to a slot stays there. -/
theorem fill_slot {i : UInt8} {entries : List (UInt8 × List UInt8)} (players : UInt8 → Player)
    {k : Nat} (hk : k < entries.length)
    (hlast : ∀ j, k < j → j < entries.length →
      slotOf i (entries.map Prod.fst) j ≠ slotOf i (entries.map Prod.fst) k) :
    fill i entries players (slotOf i (entries.map Prod.fst) k) =
      Player.entered entries[k].1 entries[k].2 := by
  induction entries generalizing i k players with
  | nil => exact absurd hk (Nat.not_lt_zero k)
  | cons e entries ih =>
    cases k with
    | zero =>
      rw [fill]
      refine (fill_of_ne _ ?_).trans (Function.update_self i _ players)
      intro j hj
      exact hlast (j + 1) (Nat.succ_pos j) (Nat.succ_lt_succ hj)
    | succ k =>
      apply ih _ (Nat.lt_of_succ_lt_succ hk)
      intro j hkj hj
      exact hlast (j + 1) (Nat.succ_lt_succ hkj) (Nat.succ_lt_succ hj)

-- Ids that are distinct, drive the loop exactly to its end, and each stand in the slot of the last
-- round that writes it, are counted from zero.
private theorem counted_of_slots {n : Nat} (hn : n ≤ 255) (id slot : Nat → Nat)
    (hzero : slot 0 = 0) (hsucc : ∀ k < n, slot (k + 1) = (id k + 1) % 256)
    (hid : ∀ k < n, id k < 256) (hlt : ∀ k < n, slot k < n) (hend : n ≤ slot n)
    (hlast : ∀ k < n, (∀ j, k < j → j < n → slot j ≠ slot k) → id k = slot k)
    (hinj : ∀ j < n, ∀ k < n, id j = id k → j = k) {k : Nat} (hk : k < n) :
    id k = k ∧ slot k = k := by
  -- From the last entry backwards.
  have key : ∀ d k, k < n → n - k ≤ d → id k = k ∧ slot k = k := by
    intro d
    induction d with
    | zero => intro k hk hd; omega
    | succ d ih =>
      intro k hk hd
      have hidk : id k = k := by
        have hs := hsucc k hk
        have hb := hid k hk
        by_cases hnext : k + 1 < n
        · have := (ih (k + 1) hnext (by omega)).2
          omega
        · have hnk : k + 1 = n := by omega
          have hlastk := hlast k hk fun j hj hjn ↦ by omega
          have hltk := hlt k hk
          rw [hnk] at hs
          omega
      refine ⟨hidk, ?_⟩
      have hown : id k = slot k := by
        apply hlast k hk
        intro j hkj hjn heq
        have hj := (ih j hjn (by omega)).2
        cases k with
        | zero => omega
        | succ k =>
          -- The id in front of entry `k` would be that of entry `j - 1`.
          have hs := hsucc k (by omega)
          have hb := hid k (by omega)
          have hprev : id (j - 1) = j - 1 := by
            by_cases hjk : j - 1 = k + 1
            · rw [hjk]
              exact hidk
            · exact (ih (j - 1) (by omega) (by omega)).1
          have := hinj k (by omega) (j - 1) (by omega) (by omega)
          omega
      omega
  exact key (n - k) k hk (Nat.le_refl _)

/-- The bytes from a cursor on begin with at most one string. -/
theorem text_wire_append_inj {t t' : Text} {p p' : List UInt8}
    (h : t.wire ++ p = t'.wire ++ p') : t = t' ∧ p = p' := by
  obtain ⟨first, rest, hrest⟩ := t
  obtain ⟨first', rest', hrest'⟩ := t'
  simp only [Text.wire, List.cons_append, List.append_assoc, List.nil_append,
    List.cons.injEq] at h
  obtain ⟨rfl, h⟩ := h
  have heq : rest = rest' := by
    rw [← cstr_append_nul hrest p, h, cstr_append_nul hrest' p']
  subst heq
  exact ⟨rfl, (List.cons.inj (List.append_cancel_left h)).2⟩

/-- The entries of a listing can be told from its bytes. -/
theorem entriesWire_inj {entries entries' : List (UInt8 × Text)}
    (h : entriesWire entries = entriesWire entries') : entries = entries' := by
  induction entries generalizing entries' with
  | nil =>
    cases entries' with
    | nil => rfl
    | cons e entries' =>
      rw [entriesWire_cons] at h
      cases h
  | cons e entries ih =>
    cases entries' with
    | nil =>
      rw [entriesWire_cons] at h
      cases h
    | cons e' entries' =>
      rw [entriesWire_cons, entriesWire_cons] at h
      obtain ⟨hid, h⟩ := List.append_inj h rfl
      obtain ⟨htext, h⟩ := text_wire_append_inj h
      rw [ih h, Prod.ext (List.cons.inj hid).1 htext]

/-- What a client sends in a PLAYERLIST: players with different ids. -/
structure Listing where
  entries : List (UInt8 × GameString)
  nodup : (entries.map Prod.fst).Nodup
  few : entries.length ≤ 255

namespace Listing

/-- The listed ids, in the order of the entries. -/
def ids (l : Listing) : List UInt8 := l.entries.map Prod.fst

/-- The bytes behind the command byte. -/
def wire (l : Listing) : List UInt8 :=
  l.entries.length.toUInt8 :: l.entries.flatMap fun e ↦ e.1 :: (e.2.chars ++ [0])

/-- The entries as the reader finds them. -/
def texts (l : Listing) : List (UInt8 × Text) := l.entries.map fun e ↦ (e.1, e.2.text)

/-- The entries as it returns them. -/
def values (l : Listing) : List (UInt8 × List UInt8) := l.entries.map fun e ↦ (e.1, e.2.chars)

private theorem texts_length (l : Listing) : l.texts.length = l.entries.length := List.length_map _

private theorem values_length (l : Listing) : l.values.length = l.entries.length :=
  List.length_map _

private theorem ids_length (l : Listing) : l.ids.length = l.entries.length := List.length_map _

private theorem texts_ids (l : Listing) : l.texts.map Prod.fst = l.ids := by
  simp only [texts, ids, List.map_map]
  rfl

private theorem values_ids (l : Listing) : l.values.map Prod.fst = l.ids := by
  simp only [values, ids, List.map_map]
  rfl

private theorem texts_value (l : Listing) : entriesValue l.texts = l.values := by
  simp only [entriesValue, texts, values, List.map_map]
  apply List.map_congr_left
  intro e _
  simp only [Function.comp_apply, e.2.text_value]

private theorem wire_eq (l : Listing) :
    l.wire = [l.entries.length.toUInt8] ++ entriesWire l.texts := by
  unfold wire entriesWire texts
  rw [List.flatMap_map, List.singleton_append]
  congr 2
  funext e
  rw [e.2.text_wire]

/-- A listing has no more entries than its count can say. -/
theorem count_toNat (l : Listing) : l.entries.length.toUInt8.toNat = l.entries.length := by
  have hfew := l.few
  rw [Nat.toUInt8, UInt8.toNat_ofNat']
  exact Nat.mod_eq_of_lt (by omega)

/-- No buffer is overrun by an entry. -/
theorem texts_fit (l : Listing) : ∀ e ∈ l.texts,
    e.2.Fits ∧ ∃ name, infoValueForKey e.2.value nameKey = .ok name := by
  intro e he
  obtain ⟨e, _, rfl⟩ := List.mem_map.mp he
  refine ⟨e.2.text_fits, infoLookup nameKey e.2.chars, ?_⟩
  rw [e.2.text_value]
  exact infoValueForKey_eq nameKey (Nat.lt_of_le_of_lt e.2.limit (by decide))

/-- The state after the entries have gone where the loop variable stood. -/
def filled (l : Listing) (q2 : Fin N) (w : World N) : World N :=
  let f (s : Q2Server) : Q2Server :=
    { s with
      playercount := l.entries.length.toUInt8
      players := fill 0 l.values s.players }
  { w with msg := w.msg.advance l.wire.length }.updateServer q2 f

/-- A listing is read to its end exactly when its ids drive the loop there. -/
theorem parsePlayerList_ok_iff {l : Listing} {q2 : Fin N} {w w' : World N}
    (h : Stands w.msg l.wire) :
    ((parsePlayerList q2).run w = .ok () w' ∧
        w'.msg.index = w.msg.index + l.wire.length) ↔
      Drives l.entries.length.toUInt8 0 l.texts ∧ w' = l.filled q2 w := by
  have hwire := l.wire_eq
  rw [hwire] at h
  obtain ⟨hcount, hentries⟩ := stands_append.mp h
  let v : World N := { w with msg := w.msg.advance 1 }.updateServer q2 fun s ↦
    { s with playercount := l.entries.length.toUInt8 }
  have hv : (v.servers q2).playercount = l.entries.length.toUInt8 := by simp [v]
  have hbyte := run_zoom_of_ok (l := inMsg) (s := w) (reads_byte _ _ hcount)
  have hassign : (modifyServer q2 fun s ↦ { s with playercount := l.entries.length.toUInt8 }).run
      { w with msg := w.msg.advance 1 } = .ok () v := rfl
  have hrun : (parsePlayerList q2).run w =
      (countedLoop q2 l.entries.length.toUInt8 msgSpace 0).run v := by
    rw [← playerListLoop_run _ hv]
    exact (run_bind_of_ok hbyte).trans (run_bind_of_ok hassign)
  have hfilled : { v with msg := v.msg.advance (entriesWire l.texts).length }.updateServer q2
      (fun s ↦ { s with players := fill 0 (entriesValue l.texts) s.players }) =
        l.filled q2 w := by
    unfold filled World.updateServer
    rw [hwire, List.length_append, l.texts_value]
    simp only [v, World.updateServer, Function.update_self, Function.update_idem,
      MsgBuffer.advance_advance, List.length_singleton]
  rw [hrun, countedLoop_ok_iff]
  constructor
  · rintro ⟨⟨entries, hd, _, hst, _, rfl⟩, hidx⟩
    have hlen : (entriesWire entries).length = (entriesWire l.texts).length := by
      have hv₁ : v.msg.index = w.msg.index + 1 := MsgBuffer.advance_index _ _
      change (v.msg.advance _).index = _ at hidx
      rw [hwire, List.length_append, MsgBuffer.advance_index, hv₁, List.length_singleton] at hidx
      omega
    have hbytes : entriesWire entries = entriesWire l.texts := by
      rw [← hst.1, hlen]
      exact hentries.1
    have heq := entriesWire_inj hbytes
    subst heq
    exact ⟨hd, hfilled⟩
  · rintro ⟨hd, rfl⟩
    refine ⟨⟨l.texts, hd, entries_length_lt hentries, hentries, l.texts_fit, hfilled.symm⟩, ?_⟩
    exact MsgBuffer.advance_index _ _

/-- The ids drive the loop to the end of the listing if they are counted from zero. -/
theorem drives_of_counted {l : Listing}
    (h : ∀ k (hk : k < l.entries.length), l.entries[k].1.toNat = k) :
    Drives l.entries.length.toUInt8 0 l.texts ∧
      ∀ k ≤ l.entries.length, (slotOf 0 l.ids k).toNat = k := by
  have hfew := l.few
  have hslot : ∀ k ≤ l.entries.length, (slotOf 0 l.ids k).toNat = k := by
    intro k hk
    cases k with
    | zero => cases l.ids <;> rfl
    | succ k =>
      have hlt : k < l.ids.length := by rw [l.ids_length]; omega
      have hid : l.ids[k] = l.entries[k].1 := List.getElem_map _
      rw [slotOf_succ 0 hlt, hid, UInt8.toNat_add, h k (by omega)]
      change (k + 1) % 256 = k + 1
      omega
  refine ⟨drives_iff.mpr ⟨?_, ?_⟩, hslot⟩
  · intro k hk
    rw [l.texts_length] at hk
    rw [l.texts_ids, UInt8.lt_iff_toNat_lt, hslot k (by omega), l.count_toNat]
    exact hk
  · rw [l.texts_length, l.texts_ids, UInt8.le_iff_toNat_le, hslot _ (Nat.le_refl _),
      l.count_toNat]

end Listing

/-- A slot with a player, his userinfo and the value of its key `"name"`, as `%s` prints
them. -/
structure Player.Holds (p : Player) (cl : UInt8) (ui : List UInt8) : Prop where
  clientId : p.clientId = cl
  userinfo : cstr p.userinfo.bytes = ui
  name : p.nameStr = infoLookup nameKey ui

/-- The table is that of the listing. -/
structure Q2Server.Lists (s : Q2Server) (l : Listing) : Prop where
  playercount : s.playercount.toNat = l.entries.length
  listed : ∀ e ∈ l.entries, (s.players e.1).Holds e.1 e.2.chars
  others : ∀ id, id ∉ l.ids → s.players id = Player.zero

/-- `ParsePlayerList` consumes exactly the bytes of the listing and leaves its table. -/
def Listing.DecodedBy (l : Listing) (q2 : Fin N) (w : World N) : Prop :=
  ∃ w', (parsePlayerList q2).run w = .ok () w' ∧
    w'.msg.index = w.msg.index + l.wire.length ∧ (w'.servers q2).Lists l

private theorem nul_notMem_plain (s : PlainString) : (0 : UInt8) ∉ s.chars :=
  fun h ↦ (s.plain 0 h).1 rfl

/-- A player is held by his slot if his name fits it. -/
theorem holds_entered_iff (clientId : UInt8) (userinfo : GameString) :
    (Player.entered clientId userinfo.chars).Holds clientId userinfo.chars ↔
      (infoLookup nameKey userinfo.chars).length < 15 := by
  have hlimit := userinfo.limit
  have hnul := nul_notMem_plain userinfo.toPlainString
  have hui : cstr (strncpy 512 userinfo.chars).bytes = userinfo.chars := by
    have h := cstr_strncpy hnul (n := 512) (by omega) []
    rwa [List.append_nil] at h
  have hfits : userinfo.chars.length < infoSize := Nat.lt_of_le_of_lt hlimit (by decide)
  have hinfo := infix_infoValueForKey (infoValueForKey_eq nameKey hfits)
  have hname : (0 : UInt8) ∉ infoLookup nameKey userinfo.chars := fun h ↦ hnul (hinfo.subset h)
  have hprint : (Player.entered clientId userinfo.chars).nameStr =
      cstr ((strncpy 15 (infoLookup nameKey userinfo.chars)).bytes ++
        (strncpy 512 userinfo.chars).bytes) := by
    rw [← nameOf_eq]
    rfl
  constructor
  · intro h
    by_contra hlong
    have heq := h.name
    rw [hprint, cstr_strncpy_of_le hname (by omega), hui] at heq
    -- The name runs on into the userinfo string, which is longer than its value.
    have hlen := congrArg List.length heq
    have hle := hinfo.length_le
    rw [List.length_append, List.length_take] at hlen
    omega
  · intro h
    refine ⟨rfl, hui, ?_⟩
    rw [hprint, cstr_strncpy hname h]

private theorem entered_ne_zero (clientId : UInt8) (userinfo : GameString) :
    Player.entered clientId userinfo.chars ≠ Player.zero := by
  intro h
  have hnul := nul_notMem_plain userinfo.toPlainString
  have hlimit := userinfo.limit
  have hui := cstr_strncpy hnul (n := 512) (by omega) []
  have hbytes : strncpy 512 userinfo.chars = Field.zero 512 := congrArg Player.userinfo h
  rw [hbytes, List.append_nil] at hui
  exact userinfo.nonempty (hui.symm.trans rfl)

namespace Listing

/-- Every round writes the slot at which the loop variable stood, so in a table of the listing
the ids are counted from zero. -/
theorem counted_of_lists {l : Listing} {q2 : Fin N} {w : World N}
    (hd : Drives l.entries.length.toUInt8 0 l.texts) (h : ((l.filled q2 w).servers q2).Lists l) :
    ∀ k (hk : k < l.entries.length), l.entries[k].1.toNat = k ∧ (slotOf 0 l.ids k).toNat = k := by
  have hplayers : ((l.filled q2 w).servers q2).players =
      fill 0 l.values (w.servers q2).players := by simp [filled]
  have hval (k : Nat) (hk : k < l.values.length) (hk' : k < l.entries.length) :
      l.values[k] = (l.entries[k].1, l.entries[k].2.chars) := List.getElem_map _
  have hids (k : Nat) (hk : k < l.entries.length) :
      l.ids.getD k 0 = l.entries[k].1 := by
    rw [List.getD_eq_getElem?_getD, List.getElem?_eq_getElem (by rw [l.ids_length]; exact hk)]
    exact List.getElem_map _
  obtain ⟨hlt, hend⟩ := drives_iff.mp hd
  rw [l.texts_ids, l.texts_length] at hlt hend
  let id (k : Nat) : Nat := (l.ids.getD k 0).toNat
  let slot (k : Nat) : Nat := (slotOf 0 l.ids k).toNat
  have hzero : slot 0 = 0 := by
    dsimp only [slot]
    cases l.ids <;> rfl
  have hsucc : ∀ k < l.entries.length, slot (k + 1) = (id k + 1) % 256 := by
    intro k hk
    have hlt' : k < l.ids.length := by rw [l.ids_length]; exact hk
    dsimp only [slot, id]
    rw [slotOf_succ 0 hlt', UInt8.toNat_add, List.getD_eq_getElem?_getD,
      List.getElem?_eq_getElem hlt']
    rfl
  have hslotlt : ∀ k < l.entries.length, slot k < l.entries.length := by
    intro k hk
    have hk' := UInt8.lt_iff_toNat_lt.mp (hlt k hk)
    rwa [l.count_toNat] at hk'
  have hslotend : l.entries.length ≤ slot l.entries.length := by
    have hend' := UInt8.le_iff_toNat_le.mp hend
    rwa [l.count_toNat] at hend'
  -- The last player written to a slot is listed under its number.
  have hlast : ∀ k < l.entries.length,
      (∀ j, k < j → j < l.entries.length → slot j ≠ slot k) → id k = slot k := by
    intro k hk hne
    have hk' : k < l.values.length := by rw [l.values_length]; exact hk
    have hslot := fill_slot (i := 0) (w.servers q2).players hk' fun j hkj hj heq ↦ by
      rw [l.values_length] at hj
      rw [l.values_ids] at heq
      exact hne j hkj hj (congrArg UInt8.toNat heq)
    rw [l.values_ids, ← hplayers, hval k hk' hk] at hslot
    by_cases hmem : slotOf 0 l.ids k ∈ l.ids
    · obtain ⟨e, he, hid⟩ := List.mem_map.mp hmem
      have hown := (h.listed e he).clientId
      rw [hid, hslot] at hown
      dsimp only [id, slot]
      rw [hids k hk, ← hown]
      rfl
    · rw [h.others _ hmem] at hslot
      exact absurd hslot.symm (entered_ne_zero _ _)
  have hinj : ∀ j < l.entries.length, ∀ k < l.entries.length, id j = id k → j = k := by
    intro j hj k hk heq
    have heq' : l.ids.getD j 0 = l.ids.getD k 0 := UInt8.toNat_inj.mp heq
    have hj' : j < l.ids.length := by rw [l.ids_length]; exact hj
    have hk' : k < l.ids.length := by rw [l.ids_length]; exact hk
    rw [List.getD_eq_getElem?_getD, List.getD_eq_getElem?_getD, List.getElem?_eq_getElem hj',
      List.getElem?_eq_getElem hk', Option.getD_some, Option.getD_some] at heq'
    exact (List.Nodup.getElem_inj_iff l.nodup).mp heq'
  intro k hk
  have hcounted := counted_of_slots l.few id slot hzero hsucc
    (fun k _ ↦ (l.ids.getD k 0).toNat_lt) hslotlt hslotend hlast hinj hk
  dsimp only [id] at hcounted
  rwa [hids k hk] at hcounted

/-- What the rounds leave if each of them goes to the slot of its number. -/
theorem fill_counted {l : Listing} (players : UInt8 → Player)
    (hids : ∀ k (hk : k < l.entries.length), l.entries[k].1.toNat = k)
    (hslots : ∀ k ≤ l.entries.length, (slotOf 0 l.ids k).toNat = k) :
    (∀ e ∈ l.entries, fill 0 l.values players e.1 = Player.entered e.1 e.2.chars) ∧
      ∀ id : UInt8, l.entries.length ≤ id.toNat → fill 0 l.values players id = players id := by
  have hvalues : l.values.length = l.entries.length := l.values_length
  constructor
  · intro e he
    obtain ⟨k, hk, rfl⟩ := List.getElem_of_mem he
    have hk' : k < l.values.length := by rw [hvalues]; exact hk
    have hfill := fill_slot (i := 0) players hk' fun j hkj hj heq ↦ by
      rw [hvalues] at hj
      rw [l.values_ids] at heq
      have hnat := congrArg UInt8.toNat heq
      rw [hslots j (by omega), hslots k (by omega)] at hnat
      omega
    have hslot : slotOf 0 l.ids k = l.entries[k].1 := by
      apply UInt8.toNat_inj.mp
      rw [hslots k (by omega), hids k hk]
    have hval : l.values[k] = (l.entries[k].1, l.entries[k].2.chars) := List.getElem_map _
    rw [l.values_ids, hslot, hval] at hfill
    exact hfill
  · intro id hid
    apply fill_of_ne
    intro k hk heq
    rw [hvalues] at hk
    rw [l.values_ids] at heq
    have hnat := congrArg UInt8.toNat heq
    rw [hslots k (by omega)] at hnat
    omega

/-- `ParsePlayerList` decodes exactly the listings whose ids are 0, 1, 2 and so on in this
order, into a table that is empty behind them, if the names fit their slots. -/
theorem decodedBy_iff (l : Listing) (q2 : Fin N) (w : World N) (h : Stands w.msg l.wire) :
    l.DecodedBy q2 w ↔
      (∀ k (hk : k < l.entries.length), l.entries[k].1.toNat = k) ∧
      (∀ id : UInt8, l.entries.length ≤ id.toNat →
        (w.servers q2).players id = Player.zero) ∧
      ∀ e ∈ l.entries, (infoLookup nameKey e.2.chars).length < 15 := by
  have hplayers : ((l.filled q2 w).servers q2).players =
      fill 0 l.values (w.servers q2).players := by simp [filled]
  have hcount : ((l.filled q2 w).servers q2).playercount.toNat = l.entries.length := by
    simp [filled, l.count_toNat]
  constructor
  · rintro ⟨w', hrun, hidx, hlists⟩
    obtain ⟨hd, rfl⟩ := (parsePlayerList_ok_iff h).mp ⟨hrun, hidx⟩
    have hids := fun k hk ↦ (counted_of_lists hd hlists k hk).1
    obtain ⟨_, hslots⟩ := drives_of_counted hids
    obtain ⟨hentered, hkept⟩ := fill_counted (w.servers q2).players hids hslots
    refine ⟨hids, ?_, ?_⟩
    · intro id hid
      rw [← hkept id hid, ← hplayers]
      apply hlists.others
      intro hmem
      obtain ⟨e, he, rfl⟩ := List.mem_map.mp hmem
      obtain ⟨k, hk, rfl⟩ := List.getElem_of_mem he
      rw [hids k hk] at hid
      omega
    · intro e he
      have hholds := hlists.listed e he
      rw [hplayers, hentered e he] at hholds
      exact (holds_entered_iff e.1 e.2).mp hholds
  · rintro ⟨hids, hempty, hnames⟩
    obtain ⟨hd, hslots⟩ := drives_of_counted hids
    obtain ⟨hentered, hkept⟩ := fill_counted (w.servers q2).players hids hslots
    obtain ⟨hrun, hidx⟩ := (parsePlayerList_ok_iff h).mpr ⟨hd, rfl⟩
    refine ⟨_, hrun, hidx, hcount, ?_, ?_⟩
    · intro e he
      rw [hplayers, hentered e he]
      exact (holds_entered_iff e.1 e.2).mpr (hnames e he)
    · intro id hid
      have hbehind : l.entries.length ≤ id.toNat := by
        by_contra hlt
        have hk : id.toNat < l.entries.length := by omega
        have heq : l.entries[id.toNat].1 = id := UInt8.toNat_inj.mp (hids _ hk)
        exact hid (List.mem_map.mpr ⟨_, List.getElem_mem hk, heq⟩)
      rw [hplayers, hkept id hbehind]
      exact hempty id hbehind

end Listing

private def sampleUserinfo : GameString := ⟨⟨[0x6e], by simp, by decide, by simp⟩, by decide⟩

private def sampleListed (l : Listing) : World 1 := { sampleStart with msg := .received l.wire }

private theorem sampleListed_stands {l : Listing} (h : l.wire.length ≤ msgSpace) :
    Stands (sampleListed l).msg l.wire := stands_of_drop h (List.append_nil _).symm

-- Two players with the ids 0 and 1.
private def sampleInOrder : Listing :=
  ⟨[(0, sampleUserinfo), (1, sampleUserinfo)], by simp, by decide⟩

/-- Two players are listed in the order of their ids. -/
theorem decodedBy_sample : sampleInOrder.DecodedBy 0 (sampleListed sampleInOrder) := by
  refine (sampleInOrder.decodedBy_iff 0 _ (sampleListed_stands (by decide))).mpr ⟨?_, ?_, ?_⟩
  · decide
  · intro id _
    rfl
  · decide

-- The same players, the one with id 1 first.
private def sampleSwapped : Listing :=
  ⟨[(1, sampleUserinfo), (0, sampleUserinfo)], by simp, by decide⟩

/-- The loop variable is 2 after the first entry, so the second one stays in the message, and
player 1 is in slot 0. -/
theorem swapped_not_decoded :
    (∃ w', (parsePlayerList 0).run (sampleListed sampleSwapped) = .ok () w' ∧
      w'.msg.index + 3 = w'.msg.length ∧ ((w'.servers 0).players 0).clientId = 1) ∧
    ¬ sampleSwapped.DecodedBy 0 (sampleListed sampleSwapped) := by
  have hrun : (returned (parsePlayerList 0) (sampleListed sampleSwapped)).any (fun w' ↦
      w'.msg.index + 3 = w'.msg.length ∧ ((w'.servers 0).players 0).clientId = 1) = true := by
    decide
  obtain ⟨_, w', hok, htest⟩ := exists_of_returned hrun
  refine ⟨⟨w', hok, of_decide_eq_true htest⟩, ?_⟩
  rintro ⟨v, h, hidx, _⟩
  have hd := ((Listing.parsePlayerList_ok_iff (sampleListed_stands (by decide))).mp ⟨h, hidx⟩).1
  exact absurd hd.2.1 (by decide)

end Q2Admin
