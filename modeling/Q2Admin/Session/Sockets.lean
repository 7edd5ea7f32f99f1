import Q2Admin.Session.Invariants

/-!
# Which sockets stand in the table

Library `Q2Admin.Session`. A table is `Tidy` when its descriptors are distinct and open,
and `Full` when no open socket is missing from it. Rebuilding drops every slot that no
connected server claims, so a `Full` table stays so only if all other slots are claimed
whenever a socket is removed: `Effect.Saving`.
-/

namespace Q2Admin

variable {N : Nat}

namespace Core

/-- The sockets of the connected servers are distinct, open and none of them the listener. -/
structure Apart (k : Core N) : Prop where
  distinct : ∀ s t, (k.records s).connected = true → (k.records t).connected = true →
    (k.records s).socket = (k.records t).socket → s = t
  listener : ∀ s, (k.records s).connected = true → (k.records s).socket ≠ k.listener
  alive : ∀ s, (k.records s).connected = true → isOpen (k.records s).socket k.trace = true

/-- The descriptors in the table are distinct, and those of clients are open. -/
structure Tidy (k : Core N) : Prop extends Wf k where
  distinct : ∀ i j, i < k.count → j < k.count → k.fds i = k.fds j → i = j
  alive : ∀ i, k.InTable i → isOpen (k.fds i) k.trace = true

/-- In a tidy state the sockets of connected servers differ. -/
theorem Tidy.apart {k : Core N} (h : k.Tidy) : k.Apart where
  distinct s t hs ht he := by
    obtain ⟨⟨_, hs1⟩, hs2⟩ := h.slot s hs
    obtain ⟨⟨_, ht1⟩, ht2⟩ := h.slot t ht
    rw [← hs2, ← ht2] at he
    exact h.inj s t hs ht (h.distinct _ _ hs1 ht1 he)
  listener s hs he := by
    obtain ⟨⟨hs0, hs1⟩, hs2⟩ := h.slot s hs
    rw [← hs2, ← h.toWf.listener] at he
    have hz := h.distinct _ _ hs1 (by omega) he
    omega
  alive s hs := by
    obtain ⟨hs1, hs2⟩ := h.slot s hs
    rw [← hs2]
    exact h.alive _ hs1

/-- A server whose slot is another one has another socket. -/
theorem Tidy.socket_ne {k : Core N} (h : k.Tidy) {s : Fin N} {i : Nat}
    (hs : (k.records s).connected = true) (hi : k.InTable i) (hne : (k.records s).index ≠ i) :
    (k.records s).socket ≠ k.fds i := by
  obtain ⟨⟨_, hs1⟩, hs2⟩ := h.slot s hs
  rw [← hs2]
  exact fun he ↦ hne (h.distinct _ _ hs1 hi.2 he)

private theorem tidy_of_rebuilt {k k' : Core N} (h : Rebuilt k k') (hl : k.fds 0 = k.listener)
    (hidle : ∀ s, (k.records s).connected = false → (k.records s).index = 0) (ha : k.Apart) :
    k'.Tidy := by
  refine ⟨wf_of_rebuilt h hl hidle, fun i j hi hj he ↦ ?_, fun i hi ↦ ?_⟩
  · have hzero (i : Nat) (hi : k'.InTable i) : k'.fds 0 ≠ k'.fds i := by
      obtain ⟨s, hs, rfl⟩ := h.onto i hi
      rw [h.fds_zero, hl, (h.slot s hs).2]
      exact (ha.listener s hs).symm
    by_cases hi0 : i = 0
    · by_cases hj0 : j = 0
      · rw [hi0, hj0]
      · rw [hi0] at he
        exact absurd he (hzero j ⟨by omega, hj⟩)
    · by_cases hj0 : j = 0
      · rw [hj0] at he
        exact absurd he.symm (hzero i ⟨by omega, hi⟩)
      · obtain ⟨s, hs, rfl⟩ := h.onto i ⟨by omega, hi⟩
        obtain ⟨t, ht, rfl⟩ := h.onto j ⟨by omega, hj⟩
        rw [(h.slot s hs).2, (h.slot t ht).2] at he
        rw [ha.distinct s t hs ht he]
  · obtain ⟨s, hs, rfl⟩ := h.onto i hi
    rw [(h.slot s hs).2, h.trace]
    exact ha.alive s hs

private theorem tidy_rebuild {k : Core N} (h : k.Tidy) : k.rebuild.Tidy :=
  tidy_of_rebuilt (rebuilt_rebuild k) h.toWf.listener h.idle h.apart

/-- Closing a socket that no connected server has keeps theirs apart and open. -/
theorem apart_closed {k : Core N} (h : k.Apart) {fd : Nat}
    (hfd : ∀ s, (k.records s).connected = true → (k.records s).socket ≠ fd) :
    (k.log (.closed fd)).Apart := by
  refine ⟨h.distinct, h.listener, fun s hs ↦ ?_⟩
  change (if fd = (k.records s).socket then false else isOpen (k.records s).socket k.trace) = true
  rw [if_neg (hfd s hs).symm]
  exact h.alive s hs

/-- Fewer connected servers stay apart. -/
theorem apart_disconnect {k : Core N} (h : k.Apart) (q2 : Fin N) {f : Record → Record}
    (hf : ∀ r, (f r).connected = false) : (k.updateRecord q2 f).Apart := by
  have hne (s : Fin N) (hs : ((k.updateRecord q2 f).records s).connected = true) : s ≠ q2 := by
    rintro rfl
    rw [updateRecord_self, hf] at hs
    cases hs
  have hrec (s : Fin N) (hs : ((k.updateRecord q2 f).records s).connected = true) :
      (k.updateRecord q2 f).records s = k.records s := updateRecord_of_ne _ _ (hne s hs)
  refine ⟨fun s t hs ht he ↦ ?_, fun s hs ↦ ?_, fun s hs ↦ ?_⟩
  · have hrs := hrec s hs
    have hrt := hrec t ht
    rw [hrs] at hs he
    rw [hrt] at ht he
    exact h.distinct s t hs ht he
  · have hrs := hrec s hs
    rw [hrs] at hs ⊢
    exact h.listener s hs
  · have hrs := hrec s hs
    rw [hrs] at hs ⊢
    exact h.alive s hs

private theorem tidy_accept {k : Core N} (h : k.Tidy) {fd : Nat} (hl : fd ≠ k.listener)
    (ho : isOpen fd k.trace = false) : (k.accept fd).Tidy := by
  have hpos := h.count_pos
  have hold (i : Nat) (hi : i < k.count) : (k.accept fd).fds i = k.fds i :=
    Function.update_of_ne (by omega) _ _
  have hnew : (k.accept fd).fds k.count = fd := Function.update_self _ _ _
  have hne (i : Nat) (hi : i < k.count) : k.fds i ≠ fd := by
    rintro rfl
    by_cases hi0 : i = 0
    · rw [hi0] at hl
      exact hl h.toWf.listener
    · rw [h.alive i ⟨by omega, hi⟩] at ho
      cases ho
  have hcases (i : Nat) (hi : i < (k.accept fd).count) : i < k.count ∨ i = k.count := by
    change i < k.count + 1 at hi
    omega
  refine ⟨wf_accept h.toWf fd, fun i j hi hj he ↦ ?_, fun i hi ↦ ?_⟩
  · rcases hcases i hi with hi | rfl
    · rcases hcases j hj with hj | rfl
      · rw [hold i hi, hold j hj] at he
        exact h.distinct i j hi hj he
      · rw [hold i hi, hnew] at he
        exact absurd he (hne i hi)
    · rcases hcases j hj with hj | rfl
      · rw [hnew, hold j hj] at he
        exact absurd he.symm (hne j hj)
      · rfl
  · change (if fd = _ then true else isOpen _ k.trace) = true
    rcases hcases i hi.2 with hlt | rfl
    · rw [hold i hlt, if_neg (hne i hlt).symm]
      exact h.alive i ⟨hi.1, hlt⟩
    · rw [hnew, if_pos rfl]

private theorem tidy_reject {k : Core N} (h : k.Tidy) {i : Nat} (hi : k.InTable i)
    (hu : k.Unclaimed i) : (k.reject i).Tidy :=
  tidy_of_rebuilt (rebuilt_rebuild _) h.toWf.listener h.idle
    (apart_closed h.apart fun s hs ↦ h.socket_ne hs hi (hu s))

private theorem tidy_hangUp {k : Core N} (h : k.Tidy) {q2 : Fin N} {i : Nat} (hi : k.InTable i)
    (hq : (k.records q2).index = i) : (k.hangUp q2 i).Tidy := by
  have hc := h.connected_of_index hq hi.1
  have hd : (k.updateRecord q2 fun r ↦
      { r with connected := false, index := 0, socket := 0 }).Apart :=
    apart_disconnect h.apart q2 fun _ ↦ rfl
  refine tidy_of_rebuilt (rebuilt_rebuild _) h.toWf.listener (fun s hs ↦ ?_)
    (apart_closed hd fun s hs ↦ ?_)
  · rw [shut_records] at hs ⊢
    by_cases hs' : s = q2
    · rw [hs', updateRecord_self]
    · rw [updateRecord_of_ne _ _ hs'] at hs ⊢
      exact h.idle s hs
  · by_cases hs' : s = q2
    · rw [hs', updateRecord_self] at hs
      cases hs
    · rw [updateRecord_of_ne _ _ hs'] at hs ⊢
      exact h.socket_ne hs hi fun he ↦ hs' (h.inj s q2 hs hc (he.trans hq.symm))

/-- No other connected server has the socket of this one. -/
def Alone (q2 : Fin N) (k : Core N) : Prop :=
  ∀ s, s ≠ q2 → (k.records s).connected = true → (k.records s).socket ≠ (k.records q2).socket

/-- In a tidy state each connected server is alone on its socket. -/
theorem Tidy.alone {k : Core N} (h : k.Tidy) {q2 : Fin N}
    (hc : (k.records q2).connected = true) : k.Alone q2 :=
  fun s hs hcs he ↦ hs (h.apart.distinct s q2 hcs hc he)

/-- Closing keeps every socket field. -/
theorem close_socket (k : Core N) (q2 s : Fin N) :
    ((k.close q2).records s).socket = (k.records s).socket := by
  rw [close, (rebuilt_rebuild _).socket]
  by_cases hs : s = q2
  · rw [hs, updateRecord_self, log_records]
  · rw [updateRecord_of_ne _ _ hs, log_records]

/-- Closing disconnects one server and no other. -/
theorem close_connected (k : Core N) (q2 s : Fin N) :
    ((k.close q2).records s).connected = (decide (s ≠ q2) && (k.records s).connected) := by
  rw [close, (rebuilt_rebuild _).connected]
  by_cases hs : s = q2
  · rw [hs, updateRecord_self]
    simp
  · rw [updateRecord_of_ne _ _ hs, log_records]
    simp [hs]

/-- The socket of the server is closed. -/
theorem close_trace (k : Core N) (q2 : Fin N) :
    (k.close q2).trace = .closed (k.records q2).socket :: k.trace := (rebuilt_rebuild _).trace

/-- A server stays alone on its socket when it is closed. -/
theorem alone_close {k : Core N} {q2 : Fin N} (h : k.Alone q2) : (k.close q2).Alone q2 := by
  intro s hs hcs
  rw [close_connected, Bool.and_eq_true] at hcs
  rw [close_socket, close_socket]
  exact h s hs hcs.2

/-- Trust does not show in the sockets. -/
theorem grant_socket (k : Core N) (q2 s : Fin N) :
    ((k.grant q2).records s).socket = (k.records s).socket := by
  rw [grant, log_records]
  by_cases hs : s = q2
  · rw [hs, updateRecord_self]
  · rw [updateRecord_of_ne _ _ hs]

/-- Trust does not show in who is connected. -/
theorem grant_connected (k : Core N) (q2 s : Fin N) :
    ((k.grant q2).records s).connected = (k.records s).connected := by
  rw [grant, log_records]
  by_cases hs : s = q2
  · rw [hs, updateRecord_self]
  · rw [updateRecord_of_ne _ _ hs]

/-- A server stays alone on its socket when it is trusted. -/
theorem alone_grant {k : Core N} {q2 : Fin N} (h : k.Alone q2) : (k.grant q2).Alone q2 := by
  intro s hs hcs
  rw [grant_connected] at hcs
  rw [grant_socket, grant_socket]
  exact h s hs hcs

/-- Trust keeps a state tidy. -/
theorem tidy_grant {k : Core N} (h : k.Tidy) (q2 : Fin N) : (k.grant q2).Tidy :=
  ⟨wf_grant h.toWf q2, h.distinct, h.alive⟩

/-- Closing the connection of a server that is alone on its socket keeps a state tidy. -/
theorem tidy_close {k : Core N} (h : k.Tidy) {q2 : Fin N} (ha : k.Alone q2) :
    (k.close q2).Tidy := by
  -- The record is taken out first, so that its own socket may be closed.
  let d := k.updateRecord q2 fun r ↦ { r with connected := false, index := 0 }
  have hd : d.Apart := apart_disconnect h.apart q2 fun _ ↦ rfl
  have hcl : (d.log (.closed (k.records q2).socket)).Apart := by
    apply apart_closed hd
    intro s hs
    by_cases hs' : s = q2
    · rw [hs', updateRecord_self] at hs
      cases hs
    · rw [updateRecord_of_ne _ _ hs'] at hs ⊢
      exact ha s hs' hs
  refine tidy_of_rebuilt (rebuilt_rebuild _) h.toWf.listener (fun s hs ↦ ?_) hcl
  by_cases hs' : s = q2
  · rw [hs', updateRecord_self]
  · rw [updateRecord_of_ne _ _ hs'] at hs ⊢
    exact h.idle s hs

/-- Binding a server to a slot that nobody owns keeps a state tidy. -/
theorem tidy_bind {k : Core N} (h : k.Tidy) (q2 : Fin N) {i : Nat} (port : UInt16)
    (maxclients : UInt8) (hi : k.InTable i) (hu : k.Unclaimed i) :
    (k.bind q2 i port maxclients).Tidy :=
  ⟨wf_bind h.toWf q2 port maxclients hi hu, h.distinct, h.alive⟩

/-- A server that is bound is connected. -/
theorem bind_connected (k : Core N) (q2 : Fin N) (i : Nat) (port : UInt16)
    (maxclients : UInt8) : ((k.bind q2 i port maxclients).records q2).connected = true := by
  rw [bind, log_records, updateRecord_self]

/-- A server that is bound has the socket of its slot. -/
theorem bind_socket (k : Core N) (q2 : Fin N) (i : Nat) (port : UInt16) (maxclients : UInt8) :
    ((k.bind q2 i port maxclients).records q2).socket = k.fds i := by
  rw [bind, log_records, updateRecord_self]

private theorem tidy_applyAll {k : Core N} (h : k.Tidy) {q2 : Fin N} (ha : k.Alone q2)
    (ops : List SessionOp) : (k.applyAll q2 ops).Tidy ∧ (k.applyAll q2 ops).Alone q2 := by
  refine applyAll_invariant (I := fun k ↦ k.Tidy ∧ k.Alone q2) (fun k op _ hk ↦ ?_) ⟨h, ha⟩
  cases op with
  | grant => exact ⟨tidy_grant hk.1 q2, alone_grant hk.2⟩
  | close => exact ⟨tidy_close hk.1 hk.2, alone_close hk.2⟩

end Core

/-- A HELLO for a registered server has been answered. -/
def Effect.Answered : Effect N → Prop
  | .hello _ _ _ _ none => False
  | _ => True

namespace Core

/-- The table stays tidy as long as every HELLO is answered. -/
theorem tidy_run {k : Core N} (h : k.Tidy) {e : Effect N} (he : e.Valid k)
    (hans : e.Answered) : (e.run k).Tidy := by
  cases e with
  | idle => exact h
  | accept fd => exact tidy_accept h he.1 he.2
  | hangUp q2 i => exact tidy_hangUp h he.1 he.2
  | reject i => exact tidy_reject h he.1 he.2
  | peer i known =>
    cases known with
    | true => exact tidy_reject h he.1 he.2
    | false => exact tidy_rebuild h
  | hello q2 i port maxclients answer =>
    cases answer with
    | some ops =>
      have hb := tidy_bind h q2 port maxclients he.1 he.2
      exact (tidy_applyAll hb (hb.alone (bind_connected k q2 i port maxclients)) ops).1
    | none => exact hans.elim
  | message q2 i ops =>
    exact (tidy_applyAll h (h.alone (h.connected_of_index he.2 he.1.1)) ops).1

end Core

namespace Core

/-- Tidy, and every open socket stands in the table. -/
structure Full (k : Core N) : Prop extends Tidy k where
  present : ∀ fd, isOpen fd k.trace = true → ∃ i, k.InTable i ∧ k.fds i = fd

/-- Every other slot than `i` is claimed by a connected server other than `except`. -/
def Settled (k : Core N) (i : Nat) (except : Option (Fin N)) : Prop :=
  ∀ j, k.InTable j → j ≠ i →
    ∃ s, (k.records s).connected = true ∧ (k.records s).index = j ∧ some s ≠ except

/-- Every open socket is that of a connected server. -/
def Claimed (k : Core N) : Prop :=
  ∀ fd, isOpen fd k.trace = true →
    ∃ s, (k.records s).connected = true ∧ (k.records s).socket = fd

private theorem full_of_rebuilt {k k' : Core N} (h : Rebuilt k k') (ht : k'.Tidy) (hc : k.Claimed) :
    k'.Full := by
  refine ⟨ht, fun fd hfd ↦ ?_⟩
  rw [h.trace] at hfd
  obtain ⟨s, hs, rfl⟩ := hc fd hfd
  exact ⟨(k'.records s).index, h.slot s hs⟩

/-- The owner of another slot, and its socket. -/
theorem Full.owner {k : Core N} (h : k.Full) {i : Nat} {except : Option (Fin N)}
    (hs : k.Settled i except) {fd : Nat} (hfd : isOpen fd k.trace = true)
    (hne : k.fds i ≠ fd) :
    ∃ s, (k.records s).connected = true ∧ (k.records s).socket = fd ∧
      (k.records s).index ≠ i ∧ some s ≠ except := by
  obtain ⟨j, hj, rfl⟩ := h.present fd hfd
  have hji : j ≠ i := by
    rintro rfl
    exact hne rfl
  obtain ⟨s, hcs, rfl, hex⟩ := hs j hj hji
  exact ⟨s, hcs, ((h.slot s hcs).2).symm, hji, hex⟩

private theorem of_isOpen_closed {fd g : Nat} {t : List Event}
    (h : isOpen fd (.closed g :: t) = true) : g ≠ fd ∧ isOpen fd t = true := by
  change (if g = fd then false else isOpen fd t) = true at h
  split at h
  · cases h
  · next hne => exact ⟨hne, h⟩

private theorem full_reject {k : Core N} (h : k.Full) {i : Nat} (hi : k.InTable i)
    (hu : k.Unclaimed i) (hs : k.Settled i none) : (k.reject i).Full := by
  apply full_of_rebuilt (rebuilt_rebuild _) (tidy_reject h.toTidy hi hu)
  intro fd hfd
  obtain ⟨hne, hopen⟩ := of_isOpen_closed hfd
  obtain ⟨s, hcs, hsock, _⟩ := h.owner hs hopen hne
  exact ⟨s, hcs, hsock⟩

private theorem full_hangUp {k : Core N} (h : k.Full) {q2 : Fin N} {i : Nat} (hi : k.InTable i)
    (hq : (k.records q2).index = i) (hs : k.Settled i none) : (k.hangUp q2 i).Full := by
  apply full_of_rebuilt (rebuilt_rebuild _) (tidy_hangUp h.toTidy hi hq)
  intro fd hfd
  obtain ⟨hne, hopen⟩ := of_isOpen_closed hfd
  obtain ⟨s, hcs, hsock, hidx, _⟩ := h.owner hs hopen hne
  have hsq : s ≠ q2 := by
    rintro rfl
    exact hidx hq
  refine ⟨s, ?_, ?_⟩
  · rw [shut_records, updateRecord_of_ne _ _ hsq]
    exact hcs
  · rw [shut_records, updateRecord_of_ne _ _ hsq]
    exact hsock

private theorem full_accept {k : Core N} (h : k.Full) {fd : Nat} (hl : fd ≠ k.listener)
    (ho : isOpen fd k.trace = false) : (k.accept fd).Full := by
  refine ⟨tidy_accept h.toTidy hl ho, fun g hg ↦ ?_⟩
  have hpos := h.count_pos
  by_cases hgf : fd = g
  · exact ⟨k.count, ⟨hpos, Nat.lt_succ_self _⟩, by rw [← hgf]; exact Function.update_self _ _ _⟩
  · change (if fd = g then true else isOpen g k.trace) = true at hg
    rw [if_neg hgf] at hg
    obtain ⟨i, hi, rfl⟩ := h.present g hg
    exact ⟨i, ⟨hi.1, Nat.lt_succ_of_lt hi.2⟩, Function.update_of_ne (by have := hi.2; omega) _ _⟩

private theorem full_grant {k : Core N} (h : k.Full) (q2 : Fin N) : (k.grant q2).Full :=
  ⟨tidy_grant h.toTidy q2, h.present⟩

/-- Every open socket but the one of `q2` is that of another connected server. -/
def ClaimedBut (q2 : Fin N) (k : Core N) : Prop :=
  ∀ fd, isOpen fd k.trace = true → (k.records q2).socket ≠ fd →
    ∃ s, s ≠ q2 ∧ (k.records s).connected = true ∧ (k.records s).socket = fd

private theorem claimedBut_grant {k : Core N} {q2 : Fin N} (h : k.ClaimedBut q2) :
    (k.grant q2).ClaimedBut q2 := by
  intro fd hfd hne
  rw [grant_socket] at hne
  obtain ⟨s, hs, hcs, hsock⟩ := h fd hfd hne
  exact ⟨s, hs, by rw [grant_connected]; exact hcs, by rw [grant_socket]; exact hsock⟩

private theorem claimedBut_close {k : Core N} {q2 : Fin N} (h : k.ClaimedBut q2) :
    (k.close q2).ClaimedBut q2 := by
  intro fd hfd hne
  rw [close_socket] at hne
  rw [close_trace] at hfd
  obtain ⟨s, hs, hcs, hsock⟩ := h fd (of_isOpen_closed hfd).2 hne
  refine ⟨s, hs, ?_, ?_⟩
  · rw [close_connected, hcs]
    simp [hs]
  · rw [close_socket]
    exact hsock

private theorem full_close {k : Core N} (h : k.Full) {q2 : Fin N} (ha : k.Alone q2)
    (hc : k.ClaimedBut q2) : (k.close q2).Full := by
  apply full_of_rebuilt (rebuilt_rebuild _) (tidy_close h.toTidy ha)
  intro fd hfd
  obtain ⟨hne, hopen⟩ := of_isOpen_closed hfd
  obtain ⟨s, hs, hcs, hsock⟩ := hc fd hopen hne
  refine ⟨s, ?_, ?_⟩
  · rw [updateRecord_of_ne _ _ hs]
    exact hcs
  · rw [updateRecord_of_ne _ _ hs]
    exact hsock

/-- A message keeps the table full when it closes nothing, or when all other open sockets
are claimed by other servers. -/
theorem full_applyAll {k : Core N} (h : k.Full) {q2 : Fin N} (ha : k.Alone q2)
    {ops : List SessionOp} (hc : SessionOp.close ∈ ops → k.ClaimedBut q2) :
    (k.applyAll q2 ops).Full := by
  by_cases hmem : SessionOp.close ∈ ops
  · have hinv : (k.applyAll q2 ops).Full ∧ (k.applyAll q2 ops).Alone q2 ∧
        (k.applyAll q2 ops).ClaimedBut q2 :=
      applyAll_invariant (I := fun k ↦ k.Full ∧ k.Alone q2 ∧ k.ClaimedBut q2)
      (fun k op _ hk ↦ by
        cases op with
        | grant => exact ⟨full_grant hk.1 q2, alone_grant hk.2.1, claimedBut_grant hk.2.2⟩
        | close =>
          exact ⟨full_close hk.1 hk.2.1 hk.2.2, alone_close hk.2.1, claimedBut_close hk.2.2⟩)
      ⟨h, ha, hc hmem⟩
    exact hinv.1
  · refine applyAll_invariant (I := Full) (fun k op hop hk ↦ ?_) h
    cases op with
    | grant => exact full_grant hk q2
    | close => exact absurd hop hmem

private theorem full_bind {k : Core N} (h : k.Full) (q2 : Fin N) {i : Nat} (port : UInt16)
    (maxclients : UInt8) (hi : k.InTable i) (hu : k.Unclaimed i) :
    (k.bind q2 i port maxclients).Full :=
  ⟨tidy_bind h.toTidy q2 port maxclients hi hu, h.present⟩

/-- After a HELLO the other sockets are claimed by other servers if they were before. -/
theorem claimedBut_bind {k : Core N} (h : k.Full) {q2 : Fin N} {i : Nat} (port : UInt16)
    (maxclients : UInt8) (hs : k.Settled i (some q2)) :
    (k.bind q2 i port maxclients).ClaimedBut q2 := by
  intro fd hfd hne
  rw [bind, log_records, updateRecord_self] at hne
  obtain ⟨s, hcs, hsock, _, hex⟩ := h.owner hs hfd hne
  have hsq : s ≠ q2 := fun he ↦ hex (by rw [he])
  refine ⟨s, hsq, ?_, ?_⟩
  · rw [bind, log_records, updateRecord_of_ne _ _ hsq]
    exact hcs
  · rw [bind, log_records, updateRecord_of_ne _ _ hsq]
    exact hsock

private theorem claimedBut_of_settled {k : Core N} (h : k.Full) {q2 : Fin N} {i : Nat}
    (hi : k.InTable i) (hq : (k.records q2).index = i) (hs : k.Settled i none) :
    k.ClaimedBut q2 := by
  have hc := h.connected_of_index hq hi.1
  have hslot := (h.slot q2 hc).2
  rw [hq] at hslot
  intro fd hfd hne
  obtain ⟨s, hcs, hsock, hidx, _⟩ := h.owner hs hfd (by rw [hslot]; exact hne)
  refine ⟨s, ?_, hcs, hsock⟩
  rintro rfl
  exact hidx hq

end Core

/-- The effect loses no socket: the table is rebuilt only when every other socket is claimed
by a server that is not about to lose it, every HELLO is answered, and every peer is. -/
def Effect.Saving (k : Core N) : Effect N → Prop
  | .idle => True
  | .accept _ => True
  | .hangUp _ i => k.Settled i none
  | .reject i => k.Settled i none
  | .peer i known => known = true ∧ k.Settled i none
  | .hello q2 i _ _ answer =>
    ∃ ops, answer = some ops ∧ (SessionOp.close ∈ ops → k.Settled i (some q2))
  | .message _ i ops => SessionOp.close ∈ ops → k.Settled i none

instance (k : Core N) (i : Nat) (except : Option (Fin N)) : Decidable (k.Settled i except) :=
  decidable_of_iff (∀ j ∈ List.range k.count, 1 ≤ j → j ≠ i →
      ∃ s, (k.records s).connected = true ∧ (k.records s).index = j ∧ some s ≠ except)
    ⟨fun h j hj ↦ h j (List.mem_range.mpr hj.2) hj.1,
      fun h j h2 h1 ↦ h j ⟨h1, List.mem_range.mp h2⟩⟩

instance (k : Core N) : (e : Effect N) → Decidable (e.Saving k)
  | .idle => inferInstanceAs (Decidable True)
  | .accept _ => inferInstanceAs (Decidable True)
  | .hangUp _ i => inferInstanceAs (Decidable (k.Settled i none))
  | .reject i => inferInstanceAs (Decidable (k.Settled i none))
  | .peer i known => inferInstanceAs (Decidable (known = true ∧ k.Settled i none))
  | .hello q2 i _ _ (some ops) =>
    decidable_of_iff (SessionOp.close ∈ ops → k.Settled i (some q2))
      ⟨fun h ↦ ⟨ops, rfl, h⟩, fun ⟨_, he, h⟩ ↦ by cases he; exact h⟩
  | .hello _ _ _ _ none => isFalse fun ⟨_, he, _⟩ ↦ by cases he
  | .message _ i ops => inferInstanceAs (Decidable (SessionOp.close ∈ ops → k.Settled i none))

namespace Core

/-- Effects that lose no socket keep the table full. -/
theorem full_run {k : Core N} (h : k.Full) {e : Effect N} (he : e.Valid k)
    (hs : e.Saving k) : (e.run k).Full := by
  cases e with
  | idle => exact h
  | accept fd => exact full_accept h he.1 he.2
  | hangUp q2 i => exact full_hangUp h he.1 he.2 hs
  | reject i => exact full_reject h he.1 he.2 hs
  | peer i known =>
    rcases hs with ⟨rfl, hs⟩
    exact full_reject h he.1 he.2 hs
  | hello q2 i port maxclients answer =>
    rcases hs with ⟨ops, rfl, hs⟩
    have hb := full_bind h q2 port maxclients he.1 he.2
    exact full_applyAll hb (hb.toTidy.alone (bind_connected k q2 i port maxclients))
      fun hmem ↦ claimedBut_bind h port maxclients (hs hmem)
  | message q2 i ops =>
    exact full_applyAll h (h.toTidy.alone (h.connected_of_index he.2 he.1.1))
      fun hmem ↦ claimedBut_of_settled h he.1 he.2 (hs hmem)

/-- In a full table every open socket has exactly one slot. -/
theorem Full.existsUnique {k : Core N} (h : k.Full) {fd : Nat}
    (hfd : isOpen fd k.trace = true) :
    ∃ i, (k.InTable i ∧ k.fds i = fd) ∧ ∀ j, k.InTable j → k.fds j = fd → j = i := by
  obtain ⟨i, hi, rfl⟩ := h.present fd hfd
  exact ⟨i, ⟨hi, rfl⟩, fun j hj he ↦ h.distinct j i hj.2 hi.2 he⟩

end Core

end Q2Admin
