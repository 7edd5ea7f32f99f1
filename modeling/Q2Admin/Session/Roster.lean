import Q2Admin.Session.Sockets
import Mathlib.Data.List.Nodup

/-!
# What a rebuild puts into the table

Library `Q2Admin.Session`. The roster of a state is the list of the sockets of its connected
servers, in list order. A rebuild of the table puts the roster into the slots from 1 on and
leaves the slots behind it as they are.
-/

namespace Q2Admin

variable {N : Nat}

namespace Core

/-- The connected servers, in list order. -/
def online (k : Core N) : List (Fin N) := (List.finRange N).filter fun s ↦ (k.records s).connected

/-- The sockets of the connected servers, in list order. -/
def roster (k : Core N) : List Nat := k.online.map fun s ↦ (k.records s).socket

private theorem mem_online {k : Core N} {s : Fin N} :
    s ∈ k.online ↔ (k.records s).connected = true := by
  unfold online
  rw [List.mem_filter]
  exact ⟨fun h ↦ h.2, fun h ↦ ⟨List.mem_finRange s, h⟩⟩

private theorem nodup_online (k : Core N) : k.online.Nodup := (List.nodup_finRange N).filter _

-- The sockets of those of the listed servers that are connected.
private def socketsOf (k : Core N) (l : List (Fin N)) : List Nat :=
  (l.filter fun s ↦ (k.records s).connected).map fun s ↦ (k.records s).socket

private theorem place_records (i : Nat) (k : Core N) (q2 s : Fin N) :
    ((place (i, k) q2).2.records s).connected = (k.records s).connected ∧
      ((place (i, k) q2).2.records s).socket = (k.records s).socket := by
  by_cases hc : (k.records q2).connected = true
  · have hp : place (i, k) q2 = _ := if_pos hc
    rw [hp]
    dsimp only
    by_cases hs : s = q2
    · rw [hs, Function.update_self]
      exact ⟨rfl, rfl⟩
    · rw [Function.update_of_ne hs]
      exact ⟨rfl, rfl⟩
  · have hp : place (i, k) q2 = (i, k) := if_neg hc
    rw [hp]
    exact ⟨rfl, rfl⟩

private theorem socketsOf_place (i : Nat) (k : Core N) (q2 : Fin N) (l : List (Fin N)) :
    socketsOf (place (i, k) q2).2 l = socketsOf k l := by
  unfold socketsOf
  simp only [(place_records i k q2 _).1, (place_records i k q2 _).2]

private theorem foldl_place (l : List (Fin N)) (i : Nat) (k : Core N) :
    (l.foldl place (i, k)).1 = i + (socketsOf k l).length ∧
      (∀ j, j < i → (l.foldl place (i, k)).2.fds j = k.fds j) ∧
      ∀ j, i ≤ j → (l.foldl place (i, k)).2.fds j = (socketsOf k l)[j - i]?.getD (k.fds j) := by
  induction l generalizing i k with
  | nil => exact ⟨rfl, fun _ _ ↦ rfl, fun _ _ ↦ rfl⟩
  | cons q2 l ih =>
    rw [List.foldl_cons]
    by_cases hc : (k.records q2).connected = true
    · have hlist : socketsOf k (q2 :: l) = (k.records q2).socket :: socketsOf k l := by
        unfold socketsOf
        simp only [List.filter_cons, hc, if_true, List.map_cons]
      have hp : place (i, k) q2 = (i + 1, (place (i, k) q2).2) := by
        have he : place (i, k) q2 = _ := if_pos hc
        rw [he]
      have hfds : (place (i, k) q2).2.fds = Function.update k.fds i (k.records q2).socket := by
        have he : place (i, k) q2 = _ := if_pos hc
        rw [he]
      obtain ⟨hcount, hbelow, habove⟩ := ih (i + 1) (place (i, k) q2).2
      rw [← hp, socketsOf_place] at hcount
      rw [← hp] at hbelow habove
      rw [hlist]
      refine ⟨?_, fun j hj ↦ ?_, fun j hj ↦ ?_⟩
      · rw [hcount, List.length_cons]
        omega
      · rw [hbelow j (by omega), hfds, Function.update_of_ne (by omega)]
      · by_cases hji : j = i
        · subst hji
          rw [hbelow j (by omega), hfds, Function.update_self, Nat.sub_self]
          rfl
        · obtain ⟨d, hd⟩ := Nat.exists_eq_add_of_lt (show i < j by omega)
          have hsub : j - i = d + 1 := by omega
          have hsub' : j - (i + 1) = d := by omega
          rw [habove j (by omega), socketsOf_place, hfds, Function.update_of_ne hji, hsub, hsub',
            List.getElem?_cons_succ]
    · have hlist : socketsOf k (q2 :: l) = socketsOf k l := by
        unfold socketsOf
        simp only [List.filter_cons, hc, Bool.false_eq_true, if_false]
      have hp : place (i, k) q2 = (i, k) := if_neg hc
      rw [hp, hlist]
      exact ih i k

/-- A rebuilt table has a slot for the listener and one for each socket of the roster. -/
theorem rebuild_count (k : Core N) : k.rebuild.count = k.roster.length + 1 := by
  have h := (foldl_place (List.finRange N) 1 k).1
  change (List.foldl place (1, k) (List.finRange N)).1 = _
  rw [h, Nat.add_comm]
  rfl

/-- A rebuild puts the roster into the slots from 1 on. -/
theorem rebuild_fds (k : Core N) {j : Nat} (hj : 1 ≤ j) :
    k.rebuild.fds j = k.roster[j - 1]?.getD (k.fds j) :=
  (foldl_place (List.finRange N) 1 k).2.2 j hj

/-- Connected servers with slots of their own are fewer than the slots of the table. -/
theorem roster_lt {k : Core N} {count : Nat} (index : Fin N → Nat) (hcount : 1 ≤ count)
    (hslot : ∀ s, (k.records s).connected = true → 1 ≤ index s ∧ index s < count)
    (hinj : ∀ s t, (k.records s).connected = true → (k.records t).connected = true →
      index s = index t → s = t) : k.roster.length < count := by
  have hnodup : (k.online.map index).Nodup := by
    refine List.Nodup.map_on (fun s hs t ht he ↦ ?_) k.nodup_online
    exact hinj s t (mem_online.mp hs) (mem_online.mp ht) he
  have hsub : k.online.map index ⊆ List.range' 1 (count - 1) := by
    intro i hi
    obtain ⟨s, hs, rfl⟩ := List.mem_map.mp hi
    have hbounds := hslot s (mem_online.mp hs)
    rw [List.mem_range'_1]
    omega
  have hle := hnodup.length_le_of_subset hsub
  rw [List.length_map, List.length_range'] at hle
  unfold roster
  rw [List.length_map]
  omega

/-- The servers that are connected leave a slot for the listener. -/
theorem Wf.roster_lt {k : Core N} (h : k.Wf) : k.roster.length < k.count :=
  Core.roster_lt (fun s ↦ (k.records s).index) h.count_pos (fun s hs ↦ (h.slot s hs).1) h.inj

/-- The table holds these sockets, from slot 1 on. -/
structure Shows (k : Core N) (sockets : List Nat) : Prop where
  count : k.count = sockets.length + 1
  fds : ∀ j, 1 ≤ j → j < k.count → sockets[j - 1]? = some (k.fds j)

private theorem shows_rebuild (k : Core N) : k.rebuild.Shows k.roster := by
  refine ⟨rebuild_count k, fun j hj hlt ↦ ?_⟩
  rw [rebuild_count] at hlt
  have hindex : j - 1 < k.roster.length := by omega
  rw [rebuild_fds k hj, List.getElem?_eq_getElem hindex]
  rfl

/-- The roster depends only on who is connected, and on which socket. -/
theorem roster_congr {k k' : Core N}
    (hconnected : ∀ s, (k'.records s).connected = (k.records s).connected)
    (hsocket : ∀ s, (k.records s).connected = true →
      (k'.records s).socket = (k.records s).socket) : k'.roster = k.roster := by
  have honline : k'.online = k.online := by
    unfold online
    simp only [hconnected]
  unfold roster
  rw [honline]
  exact List.map_congr_left fun s hs ↦ hsocket s (mem_online.mp hs)

/-- The sessions once a server has been disconnected. -/
def without (k : Core N) (q2 : Fin N) : Core N :=
  k.updateRecord q2 fun r ↦ { r with connected := false }

/-- What is done to the record of a server does not show in the roster of the others. -/
theorem roster_without {k k' : Core N} {q2 : Fin N}
    (hconnected : ∀ s, s ≠ q2 → (k'.records s).connected = (k.records s).connected)
    (hsocket : ∀ s, s ≠ q2 → (k'.records s).socket = (k.records s).socket)
    (hself : (k'.records q2).connected = false) : k'.roster = (k.without q2).roster := by
  apply roster_congr
  · intro s
    by_cases hs : s = q2
    · rw [hs, hself, without, updateRecord_self]
    · rw [hconnected s hs, without, updateRecord_of_ne _ _ hs]
  · intro s hc
    by_cases hs : s = q2
    · rw [hs, without, updateRecord_self] at hc
      cases hc
    · rw [hsocket s hs, without, updateRecord_of_ne _ _ hs]

private theorem shows_hangUp (k : Core N) (q2 : Fin N) (i : Nat) :
    (k.hangUp q2 i).Shows (k.without q2).roster := by
  have hroster : ((k.updateRecord q2 fun r ↦
      { r with connected := false, index := 0, socket := 0 }).shut i).roster =
        (k.without q2).roster := by
    refine roster_without (fun s hs ↦ ?_) (fun s hs ↦ ?_) ?_
    · rw [shut_records, updateRecord_of_ne _ _ hs]
    · rw [shut_records, updateRecord_of_ne _ _ hs]
    · rw [shut_records, updateRecord_self]
  exact hroster ▸ shows_rebuild _

private theorem roster_apply {k k' : Core N} {q2 : Fin N} (op : SessionOp)
    (hrecords : ∀ s, s ≠ q2 → (k'.records s).connected = ((k.apply q2 op).records s).connected ∧
      (k'.records s).socket = ((k.apply q2 op).records s).socket)
    (hself : (k'.records q2).connected = false) : k'.roster = (k.without q2).roster := by
  refine roster_without (fun s hs ↦ (hrecords s hs).1.trans ?_)
    (fun s hs ↦ (hrecords s hs).2.trans ?_) hself
  · cases op with
    | grant => exact grant_connected k q2 s
    | close =>
      have hclose := close_connected k q2 s
      rwa [decide_eq_true hs, Bool.true_and] at hclose
  · cases op with
    | grant => exact grant_socket k q2 s
    | close => exact close_socket k q2 s

private theorem without_apply (k : Core N) (q2 : Fin N) (op : SessionOp) :
    ((k.apply q2 op).without q2).roster = (k.without q2).roster := by
  refine roster_apply op (fun s hs ↦ ?_) ?_
  · rw [without, updateRecord_of_ne _ _ hs]
    exact ⟨rfl, rfl⟩
  · rw [without, updateRecord_self]

private theorem shows_close (k : Core N) (q2 : Fin N) :
    (k.close q2).Shows (k.without q2).roster := by
  have hroster : (k.close q2).roster = (k.without q2).roster := by
    refine roster_apply .close (fun s _ ↦ ⟨rfl, rfl⟩) ?_
    rw [close_connected]
    simp
  have hkept : (k.close q2).roster = ((k.log (.closed (k.records q2).socket)).updateRecord q2
      fun r ↦ { r with connected := false, index := 0 }).roster := by
    have hrebuilt := rebuilt_rebuild ((k.log (.closed (k.records q2).socket)).updateRecord q2
      fun r ↦ { r with connected := false, index := 0 })
    exact roster_congr hrebuilt.connected fun s _ ↦ hrebuilt.socket s
  rw [← hroster, hkept]
  exact shows_rebuild _

private theorem shows_apply {k : Core N} {q2 : Fin N} (h : k.Shows (k.without q2).roster)
    (op : SessionOp) : (k.apply q2 op).Shows ((k.apply q2 op).without q2).roster := by
  rw [without_apply]
  cases op with
  | grant => exact ⟨h.count, h.fds⟩
  | close => exact shows_close k q2

/-- A message that closes the connection of its server leaves the others in the table. -/
theorem shows_applyAll {k : Core N} {q2 : Fin N} {ops : List SessionOp}
    (h : SessionOp.close ∈ ops) : (k.applyAll q2 ops).Shows (k.without q2).roster := by
  have hlisted {k : Core N} {ops : List SessionOp} (hk : k.Shows (k.without q2).roster) :
      (k.applyAll q2 ops).Shows ((k.applyAll q2 ops).without q2).roster :=
    applyAll_invariant (I := fun k ↦ k.Shows (k.without q2).roster)
      (fun _ op _ hk ↦ shows_apply hk op) hk
  have hroster (k : Core N) (ops : List SessionOp) :
      ((k.applyAll q2 ops).without q2).roster = (k.without q2).roster :=
    applyAll_invariant (I := fun k' ↦ (k'.without q2).roster = (k.without q2).roster)
      (fun k' op _ hk ↦ (without_apply k' q2 op).trans hk) rfl
  obtain ⟨before, after, rfl⟩ := List.append_of_mem h
  have happend : k.applyAll q2 (before ++ .close :: after) =
      ((k.applyAll q2 before).close q2).applyAll q2 after := List.foldl_append
  have hclosed : ((k.applyAll q2 before).close q2).Shows
      ((((k.applyAll q2 before).close q2)).without q2).roster := by
    rw [show ((k.applyAll q2 before).close q2) = (k.applyAll q2 before).apply q2 .close from rfl,
      without_apply]
    exact shows_close _ q2
  rw [← hroster k (before ++ .close :: after), happend]
  exact hlisted hclosed

end Core

/-- The sockets that an effect leaves in the table, if it rebuilds the table. -/
def Effect.roster : Effect N → Core N → Option (List Nat)
  | .idle, _ => none
  | .accept _, _ => none
  | .hangUp q2 _, k => some (k.without q2).roster
  | .reject _, k => some k.roster
  | .peer _ _, k => some k.roster
  | .hello q2 i port maxclients none, k => some (k.bind q2 i port maxclients).roster
  | .hello q2 _ _ _ (some ops), k => if .close ∈ ops then some (k.without q2).roster else none
  | .message q2 _ ops, k => if .close ∈ ops then some (k.without q2).roster else none

/-- An effect that rebuilds the table leaves its roster there. -/
theorem Effect.shows_run {e : Effect N} {k : Core N} {sockets : List Nat}
    (h : e.roster k = some sockets) : (e.run k).Shows sockets := by
  have hreject (k : Core N) (i : Nat) : (k.reject i).Shows k.roster := by
    have hshut : (k.shut i).roster = k.roster :=
      Core.roster_congr (fun _ ↦ rfl) fun _ _ ↦ rfl
    exact hshut ▸ Core.shows_rebuild _
  have hops {k : Core N} {q2 : Fin N} {ops : List SessionOp}
      (h : (if .close ∈ ops then some (k.without q2).roster else none) = some sockets) :
      (k.applyAll q2 ops).Shows sockets := by
    split at h
    · next hclose =>
      cases h
      exact Core.shows_applyAll hclose
    · cases h
  cases e with
  | idle => cases h
  | accept fd => cases h
  | hangUp q2 i =>
    cases h
    exact Core.shows_hangUp k q2 i
  | reject i =>
    cases h
    exact hreject k i
  | peer i known =>
    cases h
    cases known with
    | true => exact hreject k i
    | false => exact Core.shows_rebuild k
  | hello q2 i port maxclients answer =>
    cases answer with
    | none =>
      cases h
      exact hreject _ i
    | some ops =>
      have hbind : ((k.bind q2 i port maxclients).without q2).roster = (k.without q2).roster := by
        refine Core.roster_without (fun s hs ↦ ?_) (fun s hs ↦ ?_) ?_
        · rw [Core.without, Core.updateRecord_of_ne _ _ hs, Core.bind, Core.log_records,
            Core.updateRecord_of_ne _ _ hs]
        · rw [Core.without, Core.updateRecord_of_ne _ _ hs, Core.bind, Core.log_records,
            Core.updateRecord_of_ne _ _ hs]
        · rw [Core.without, Core.updateRecord_self]
      apply hops
      rw [hbind]
      exact h
  | message q2 i ops => exact hops h

/-- An effect that does not rebuild the table leaves it as it is, unless a socket is accepted. -/
theorem Effect.table_run {e : Effect N} {k : Core N} (h : e.roster k = none)
    (haccept : e.isAccept = false) : (e.run k).fds = k.fds ∧ (e.run k).count = k.count := by
  have hops {k : Core N} {q2 : Fin N} {ops : List SessionOp} {sockets : List Nat}
      (h : (if .close ∈ ops then some sockets else none) = none) :
      (k.applyAll q2 ops).fds = k.fds ∧ (k.applyAll q2 ops).count = k.count := by
    split at h
    · cases h
    · next hclose =>
      refine Core.applyAll_invariant (I := fun k' ↦ k'.fds = k.fds ∧ k'.count = k.count)
        (fun k' op hop hk ↦ ?_) ⟨rfl, rfl⟩
      cases op with
      | grant => exact hk
      | close => exact absurd hop hclose
  cases e with
  | idle => exact ⟨rfl, rfl⟩
  | accept fd => cases haccept
  | hangUp q2 i => cases h
  | reject i => cases h
  | peer i known => cases h
  | hello q2 i port maxclients answer =>
    cases answer with
    | none => cases h
    | some ops => exact hops (k := k.bind q2 i port maxclients) h
  | message q2 i ops => exact hops h

end Q2Admin
