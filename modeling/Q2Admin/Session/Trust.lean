import Q2Admin.Session.Sockets

/-!
# Trust and possession of a session

Library `Q2Admin.Session`. `VerifiedOn` reads off the trace that a server has proved its
identity on a socket after the HELLO that bound the socket to it, and that the socket is still
the same connection. `Trusting` says that trusted sessions have; it is kept as long as no HELLO
is bound to a record that is already trusted, no number in the table is accepted a second time
and what is heard is heard on open sockets.
`Held` is a trusted session that others leave alone.
-/

namespace Q2Admin

variable {N : Nat}

/-- The event ends the hold of the server on the socket: another HELLO for the server, or a
close or an accept of the number, behind which it stands for another connection. -/
def Event.parts (s fd : Nat) : Event → Bool
  | .bound t _ => t = s
  | .closed g | .accepted g => g = fd
  | _ => false

/-- The last HELLO for the server bound this socket, which has not been closed or accepted
since; the trace is newest first. -/
def BoundTo (s fd : Nat) (trace : List Event) : Prop :=
  ∃ t₁ t₂, trace = t₁ ++ .bound s fd :: t₂ ∧ ∀ e ∈ t₁, e.parts s fd = false

/-- `VerifyClientChallenge` has returned true for the server on this socket, after the HELLO
that bound the socket to it; since that HELLO there was no other one for the server, and the
socket has neither been closed nor been accepted again. -/
def VerifiedOn (s fd : Nat) (trace : List Event) : Prop :=
  ∃ t₁ t₂ t₃, trace = t₁ ++ .verified s fd :: (t₂ ++ .bound s fd :: t₃) ∧
    ∀ e ∈ t₁ ++ t₂, e.parts s fd = false

/-- A verification of the socket that the last HELLO bound. -/
theorem verifiedOn_of_boundTo {s fd : Nat} {trace : List Event} (h : BoundTo s fd trace) :
    VerifiedOn s fd (.verified s fd :: trace) := by
  rcases h with ⟨t₁, t₂, rfl, hno⟩
  exact ⟨[], t₁, t₂, rfl, hno⟩

/-- A bound socket stays so through events that do not part it from the server. -/
theorem boundTo_cons {s fd : Nat} {trace : List Event} {e : Event} (h : BoundTo s fd trace)
    (he : e.parts s fd = false) : BoundTo s fd (e :: trace) := by
  rcases h with ⟨t₁, t₂, rfl, hno⟩
  exact ⟨e :: t₁, t₂, rfl, List.forall_mem_cons.mpr ⟨he, hno⟩⟩

/-- A verified socket stays so through events that do not part it from the server. -/
theorem verifiedOn_cons {s fd : Nat} {trace : List Event} {e : Event}
    (h : VerifiedOn s fd trace) (he : e.parts s fd = false) : VerifiedOn s fd (e :: trace) := by
  rcases h with ⟨t₁, t₂, t₃, rfl, hno⟩
  exact ⟨e :: t₁, t₂, t₃, rfl, List.forall_mem_cons.mpr ⟨he, hno⟩⟩

namespace Core

/-- The connected servers have sockets of their own. Those whose socket is open have it from
their last HELLO, and the trusted ones have verified themselves on it. -/
structure Earned (k : Core N) : Prop where
  apart : ∀ s t, (k.records s).connected = true → (k.records t).connected = true →
    (k.records s).socket = (k.records t).socket → s = t
  bound : ∀ s, (k.records s).connected = true → isOpen (k.records s).socket k.trace = true →
    BoundTo s (k.records s).socket k.trace
  verified : ∀ s, (k.records s).connected = true → (k.records s).trusted = true →
    VerifiedOn s (k.records s).socket k.trace

/-- Trust is earned, and no number stands in two slots of clients. A socket in the table may
be closed: that of a server whose HELLO was not answered. -/
structure Trusting (k : Core N) : Prop extends Earned k where
  distinct : ∀ i j, k.InTable i → k.InTable j → k.fds i = k.fds j → i = j

private theorem trusting_of_rebuilt {k k' : Core N} (hr : Rebuilt k k') (h : k.Earned) :
    k'.Trusting where
  apart s t hs ht he := by
    rw [hr.connected] at hs ht
    rw [hr.socket, hr.socket] at he
    exact h.apart s t hs ht he
  bound s hs ho := by
    rw [hr.connected] at hs
    rw [hr.socket, hr.trace] at ho ⊢
    exact h.bound s hs ho
  verified s hs ht := by
    rw [hr.connected] at hs
    rw [hr.trusted] at ht
    rw [hr.socket, hr.trace]
    exact h.verified s hs ht
  distinct i j hi hj he := by
    obtain ⟨s, hs, rfl⟩ := hr.onto i hi
    obtain ⟨t, ht, rfl⟩ := hr.onto j hj
    rw [(hr.slot s hs).2, (hr.slot t ht).2] at he
    rw [h.apart s t hs ht he]

private theorem trusting_rebuild {k : Core N} (h : k.Earned) : k.rebuild.Trusting :=
  trusting_of_rebuilt (rebuilt_rebuild k) h

private theorem earned_closed {k : Core N} (h : k.Earned) {fd : Nat}
    (hfd : ∀ s, (k.records s).connected = true → (k.records s).trusted = true →
      (k.records s).socket ≠ fd) : (k.log (.closed fd)).Earned where
  apart := h.apart
  bound s hs ho := by
    change (if fd = (k.records s).socket then false else _) = true at ho
    split at ho
    · cases ho
    · next hne => exact boundTo_cons (h.bound s hs ho) (decide_eq_false hne)
  verified s hs ht :=
    verifiedOn_cons (h.verified s hs ht) (decide_eq_false (hfd s hs ht).symm)

private theorem earned_disconnect {k : Core N} (h : k.Earned) (q2 : Fin N) {f : Record → Record}
    (hf : ∀ r, (f r).connected = false) : (k.updateRecord q2 f).Earned := by
  have hrec (s : Fin N) (hs : ((k.updateRecord q2 f).records s).connected = true) :
      (k.updateRecord q2 f).records s = k.records s := by
    refine updateRecord_of_ne k f ?_
    rintro rfl
    rw [updateRecord_self, hf] at hs
    cases hs
  refine ⟨fun s t hs ht he ↦ ?_, fun s hs ho ↦ ?_, fun s hs hts ↦ ?_⟩
  · have hrs := hrec s hs
    have hrt := hrec t ht
    rw [hrs] at hs he
    rw [hrt] at ht he
    exact h.apart s t hs ht he
  · have hrs := hrec s hs
    rw [hrs] at hs ho ⊢
    exact h.bound s hs ho
  · have hrs := hrec s hs
    rw [hrs] at hs hts ⊢
    exact h.verified s hs hts

private theorem Trusting.socket_ne {k : Core N} (hw : k.Wf) (h : k.Trusting) {s : Fin N} {i : Nat}
    (hs : (k.records s).connected = true) (hi : k.InTable i) (hne : (k.records s).index ≠ i) :
    (k.records s).socket ≠ k.fds i := by
  obtain ⟨hslot, hfd⟩ := hw.slot s hs
  rw [← hfd]
  exact fun he ↦ hne (h.distinct _ _ hslot hi he)

private theorem trusting_accept {k : Core N} (hw : k.Wf) (h : k.Trusting) {fd : Nat}
    (hnew : ∀ i, k.InTable i → k.fds i ≠ fd) : (k.accept fd).Trusting := by
  have hne (s : Fin N) (hs : (k.records s).connected = true) : fd ≠ (k.records s).socket := by
    obtain ⟨hslot, hfd⟩ := hw.slot s hs
    rw [← hfd]
    exact (hnew _ hslot).symm
  have hold (i : Nat) (hi : (k.accept fd).InTable i) (hic : i ≠ k.count) :
      k.InTable i ∧ (k.accept fd).fds i = k.fds i := by
    have hlt : i < k.count + 1 := hi.2
    exact ⟨⟨hi.1, by omega⟩, Function.update_of_ne hic _ _⟩
  have hlast : (k.accept fd).fds k.count = fd := Function.update_self _ _ _
  refine ⟨⟨h.apart, fun s hs ho ↦ ?_, fun s hs ht ↦ ?_⟩, fun i j hi hj he ↦ ?_⟩
  · change (if fd = (k.records s).socket then true else _) = true at ho
    rw [if_neg (hne s hs)] at ho
    exact boundTo_cons (h.bound s hs ho) (decide_eq_false (hne s hs))
  · exact verifiedOn_cons (h.verified s hs ht) (decide_eq_false (hne s hs))
  · by_cases hic : i = k.count
    · by_cases hjc : j = k.count
      · rw [hic, hjc]
      · obtain ⟨hj, hfj⟩ := hold j hj hjc
        rw [hic, hlast, hfj] at he
        exact absurd he.symm (hnew j hj)
    · obtain ⟨hi, hfi⟩ := hold i hi hic
      by_cases hjc : j = k.count
      · rw [hjc, hlast, hfi] at he
        exact absurd he (hnew i hi)
      · obtain ⟨hj, hfj⟩ := hold j hj hjc
        rw [hfi, hfj] at he
        exact h.distinct i j hi hj he

private theorem trusting_reject {k : Core N} (hw : k.Wf) (h : k.Trusting) {i : Nat}
    (hi : k.InTable i) (hu : k.Unclaimed i) : (k.reject i).Trusting :=
  trusting_rebuild (earned_closed h.toEarned fun s hs _ ↦ h.socket_ne hw hs hi (hu s))

private theorem trusting_hangUp {k : Core N} (hw : k.Wf) (h : k.Trusting) {q2 : Fin N} {i : Nat}
    (hi : k.InTable i) (hq : (k.records q2).index = i) : (k.hangUp q2 i).Trusting := by
  have hd := earned_disconnect h.toEarned q2
    (f := fun r ↦ { r with connected := false, index := 0, socket := 0 }) fun _ ↦ rfl
  refine trusting_rebuild (earned_closed hd fun s hs _ ↦ ?_)
  by_cases hs' : s = q2
  · rw [hs', updateRecord_self] at hs
    cases hs
  · rw [updateRecord_of_ne _ _ hs'] at hs ⊢
    refine h.socket_ne hw hs hi fun he ↦ hs' ?_
    exact hw.inj s q2 hs (hw.connected_of_index hq hi.1) (he.trans hq.symm)

private theorem trusting_close {k : Core N} (h : k.Trusting) {q2 : Fin N} (ha : k.Alone q2) :
    (k.close q2).Trusting := by
  -- The record is taken out first, so that its own socket may be closed.
  let d := k.updateRecord q2 fun r ↦ { r with connected := false, index := 0 }
  have hd : d.Earned := earned_disconnect h.toEarned q2 fun _ ↦ rfl
  have hclosed : (d.log (.closed (k.records q2).socket)).Earned := earned_closed hd fun s hs _ ↦ by
    by_cases hs' : s = q2
    · rw [hs', updateRecord_self] at hs
      cases hs
    · rw [updateRecord_of_ne _ _ hs'] at hs ⊢
      exact ha s hs' hs
  exact trusting_rebuild hclosed

/-- The socket of a connected server is open. -/
def Alive (q2 : Fin N) (k : Core N) : Prop :=
  (k.records q2).connected = true → isOpen (k.records q2).socket k.trace = true

-- A verification on an open socket earns trust.
private theorem trusting_grant {k : Core N} (h : k.Trusting) {q2 : Fin N} (hl : k.Alive q2) :
    (k.grant q2).Trusting := by
  refine ⟨⟨fun s t hs ht he ↦ ?_, fun s hs ho ↦ ?_, fun s hs ht ↦ ?_⟩, h.distinct⟩
  · rw [grant_connected] at hs ht
    rw [grant_socket, grant_socket] at he
    exact h.apart s t hs ht he
  · rw [grant_connected] at hs
    rw [grant_socket] at ho ⊢
    exact boundTo_cons (h.bound s hs ho) rfl
  · rw [grant_connected] at hs
    rw [grant_socket]
    by_cases hq : s = q2
    · subst hq
      exact verifiedOn_of_boundTo (h.bound s hs (hl hs))
    · rw [grant, log_records, updateRecord_of_ne _ _ hq] at ht
      exact verifiedOn_cons (h.verified s hs ht) rfl

-- A HELLO starts a session that is not trusted, provided its record was not.
private theorem trusting_bind {k : Core N} (hw : k.Wf) (h : k.Trusting) {q2 : Fin N} {i : Nat}
    (port : UInt16) (maxclients : UInt8) (hi : k.InTable i) (hu : k.Unclaimed i)
    (ht : (k.records q2).trusted = false) : (k.bind q2 i port maxclients).Trusting := by
  have hself := bind_socket k q2 i port maxclients
  have hold (s : Fin N) (hs : s ≠ q2) :
      (k.bind q2 i port maxclients).records s = k.records s := by
    rw [bind, log_records, updateRecord_of_ne _ _ hs]
  have hparts (s : Fin N) (hs : s ≠ q2) (fd : Nat) :
      (Event.bound q2 (k.fds i)).parts s fd = false :=
    decide_eq_false fun he ↦ hs (Fin.ext he).symm
  have hne (s : Fin N) (hs : s ≠ q2) (hc : ((k.bind q2 i port maxclients).records s).connected) :
      ((k.bind q2 i port maxclients).records s).socket ≠ k.fds i := by
    rw [hold s hs] at hc ⊢
    exact h.socket_ne hw hc hi (hu s)
  refine ⟨⟨fun s t hs htc he ↦ ?_, fun s hs ho ↦ ?_, fun s hs hts ↦ ?_⟩, h.distinct⟩
  · by_cases hsq : s = q2
    · by_cases htq : t = q2
      · rw [hsq, htq]
      · rw [hsq, hself] at he
        exact absurd he.symm (hne t htq htc)
    · by_cases htq : t = q2
      · rw [htq, hself] at he
        exact absurd he (hne s hsq hs)
      · rw [hold s hsq] at hs he
        rw [hold t htq] at htc he
        exact h.apart s t hs htc he
  · by_cases hsq : s = q2
    · subst hsq
      rw [hself]
      exact ⟨[], k.trace, rfl, fun _ he ↦ absurd he List.not_mem_nil⟩
    · rw [hold s hsq] at hs ho ⊢
      exact boundTo_cons (h.bound s hs ho) (hparts s hsq _)
  · by_cases hsq : s = q2
    · subst hsq
      rw [bind, log_records, updateRecord_self] at hts
      change (k.records s).trusted = true at hts
      rw [ht] at hts
      cases hts
    · rw [hold s hsq] at hs hts ⊢
      exact verifiedOn_cons (h.verified s hs hts) (hparts s hsq _)

private theorem trusting_applyAll {k : Core N} (h : k.Trusting) {q2 : Fin N} (ha : k.Alone q2)
    (hl : k.Alive q2) (ops : List SessionOp) : (k.applyAll q2 ops).Trusting := by
  refine (applyAll_invariant (I := fun k ↦ k.Trusting ∧ k.Alone q2 ∧ k.Alive q2)
    (fun k op _ ⟨h, ha, hl⟩ ↦ ?_) ⟨h, ha, hl⟩).1
  cases op with
  | grant =>
    refine ⟨trusting_grant h hl, alone_grant ha, fun hc ↦ ?_⟩
    have hc' : ((k.grant q2).records q2).connected = true := hc
    rw [grant_connected] at hc'
    have hopen : isOpen ((k.grant q2).records q2).socket k.trace = true := by
      rw [grant_socket]
      exact hl hc'
    exact hopen
  | close =>
    refine ⟨trusting_close h ha, alone_close ha, fun hc ↦ ?_⟩
    have hc' : ((k.close q2).records q2).connected = true := hc
    rw [close_connected, decide_eq_false (not_not.mpr rfl)] at hc'
    cases hc'

end Core

/-- No HELLO is bound to a record that is still trusted. -/
def Effect.Untrusted (k : Core N) : Effect N → Prop
  | .hello q2 _ _ _ _ => (k.records q2).trusted = false
  | _ => True

/-- No number is accepted that stands in the table already. -/
def Effect.Unlisted (k : Core N) : Effect N → Prop
  | .accept fd => ∀ i, k.InTable i → k.fds i ≠ fd
  | _ => True

/-- What a server says comes on an open socket. -/
def Effect.OnOpenSocket (k : Core N) : Effect N → Prop
  | .hello _ i _ _ _ => isOpen (k.fds i) k.trace = true
  | .message _ i ops => ops ≠ [] → isOpen (k.fds i) k.trace = true
  | _ => True

namespace Core

/-- Trust stays with the connection that earned it, as long as no HELLO is bound to a record
that is still trusted, no number in the table is accepted again, and what is heard comes on open
sockets. -/
theorem trusting_run {k : Core N} (hw : k.Wf) (h : k.Trusting) {e : Effect N} (hv : e.Valid k)
    (ht : e.Untrusted k) (hl : e.Unlisted k) (ho : e.OnOpenSocket k) : (e.run k).Trusting := by
  cases e with
  | idle => exact h
  | accept fd => exact trusting_accept hw h hl
  | hangUp q2 i => exact trusting_hangUp hw h hv.1 hv.2
  | reject i => exact trusting_reject hw h hv.1 hv.2
  | peer i known =>
    cases known with
    | true => exact trusting_reject hw h hv.1 hv.2
    | false => exact trusting_rebuild h.toEarned
  | hello q2 i port maxclients answer =>
    have hb := trusting_bind hw h port maxclients hv.1 hv.2 ht
    have hc := bind_connected k q2 i port maxclients
    have hsocket := bind_socket k q2 i port maxclients
    have halone : (k.bind q2 i port maxclients).Alone q2 :=
      fun s hs hcs he ↦ hs (hb.apart s q2 hcs hc he)
    cases answer with
    | some ops =>
      refine trusting_applyAll hb halone (fun _ ↦ ?_) ops
      rw [hsocket]
      exact ho
    | none =>
      -- The record is not trusted, so that its own socket may be closed under it.
      refine trusting_rebuild (earned_closed hb.toEarned fun s hs hts he ↦ ?_)
      have hsq : s = q2 := hb.apart s q2 hs hc (he.trans hsocket.symm)
      rw [hsq, bind, log_records, updateRecord_self] at hts
      exact Bool.false_ne_true (Eq.trans (Eq.symm ht) hts)
  | message q2 i ops =>
    by_cases hops : ops = []
    · rw [hops]
      exact h
    · have hc := hw.connected_of_index hv.2 hv.1.1
      refine trusting_applyAll h (fun s hs hcs he ↦ hs (h.apart s q2 hcs hc he)) (fun _ ↦ ?_) ops
      rw [← (hw.slot q2 hc).2, hv.2]
      exact ho hops

private theorem trusted_updateRecord (k : Core N) (q2 s : Fin N) {f : Record → Record}
    (hf : ∀ r, (f r).trusted = r.trusted) :
    ((k.updateRecord q2 f).records s).trusted = (k.records s).trusted := by
  by_cases hs : s = q2
  · rw [hs, updateRecord_self, hf]
  · rw [updateRecord_of_ne _ _ hs]

private theorem trusted_apply (k : Core N) (q2 s : Fin N) (op : SessionOp) :
    ((k.apply q2 op).records s).trusted = true ↔
      (k.records s).trusted = true ∨ s = q2 ∧ op = .grant := by
  cases op with
  | grant =>
    change ((k.grant q2).records s).trusted = true ↔ _
    rw [grant, log_records]
    by_cases hs : s = q2
    · rw [hs, updateRecord_self]
      simp
    · rw [updateRecord_of_ne _ _ hs]
      simp [hs]
  | close =>
    have hclose : ((k.close q2).records s).trusted = (k.records s).trusted :=
      ((rebuilt_rebuild _).trusted s).trans (trusted_updateRecord _ q2 s
        (f := fun r ↦ { r with connected := false, index := 0 }) fun _ ↦ rfl)
    change ((k.close q2).records s).trusted = true ↔ _
    rw [hclose]
    simp

/-- A message trusts its server if one of its operations does, and nobody else. -/
theorem trusted_applyAll (k : Core N) (q2 s : Fin N) (ops : List SessionOp) :
    ((k.applyAll q2 ops).records s).trusted = true ↔
      (k.records s).trusted = true ∨ s = q2 ∧ .grant ∈ ops := by
  induction ops generalizing k with
  | nil => simp [applyAll]
  | cons op ops ih =>
    change (((k.apply q2 op).applyAll q2 ops).records s).trusted = true ↔ _
    rw [ih, trusted_apply, List.mem_cons, or_assoc, ← and_or_left, eq_comm (a := op)]

end Core

/-- The server proves its identity: an AUTH of it is accepted. -/
def Effect.Grants (s : Fin N) : Effect N → Prop
  | .hello q2 _ _ _ (some ops) => s = q2 ∧ .grant ∈ ops
  | .message q2 _ ops => s = q2 ∧ .grant ∈ ops
  | _ => False

namespace Core

private theorem trusted_reject (k : Core N) (i : Nat) (s : Fin N) :
    ((k.reject i).records s).trusted = (k.records s).trusted := (rebuilt_rebuild _).trusted s

/-- Trust is granted by an AUTH that is accepted, and it is never taken away. -/
theorem trusted_run (k : Core N) (e : Effect N) (s : Fin N) :
    ((e.run k).records s).trusted = true ↔ (k.records s).trusted = true ∨ e.Grants s := by
  cases e with
  | hangUp q2 i =>
    refine (iff_of_eq (congrArg (· = true) ?_)).trans (or_iff_left id).symm
    exact ((rebuilt_rebuild _).trusted s).trans (trusted_updateRecord k q2 s
      (f := fun r ↦ { r with connected := false, index := 0, socket := 0 }) fun _ ↦ rfl)
  | reject i =>
    exact (iff_of_eq (congrArg (· = true) (trusted_reject k i s))).trans (or_iff_left id).symm
  | peer i known =>
    refine (iff_of_eq (congrArg (· = true) ?_)).trans (or_iff_left id).symm
    cases known with
    | true => exact trusted_reject k i s
    | false => exact (rebuilt_rebuild k).trusted s
  | hello q2 i port maxclients answer =>
    have hbind : ((k.bind q2 i port maxclients).records s).trusted = (k.records s).trusted :=
      trusted_updateRecord k q2 s (f := fun r ↦
        { r with
          index := i, socket := k.fds i, connected := true, port := port,
          maxclients := maxclients }) fun _ ↦ rfl
    cases answer with
    | some ops =>
      change (((k.bind q2 i port maxclients).applyAll q2 ops).records s).trusted = true ↔ _
      rw [trusted_applyAll, hbind]
      exact Iff.rfl
    | none =>
      refine (iff_of_eq (congrArg (· = true) ?_)).trans (or_iff_left id).symm
      exact (trusted_reject _ i s).trans hbind
  | message q2 i ops => exact trusted_applyAll k q2 s ops
  | _ => exact (or_iff_left id).symm

/-- The server is connected and trusted on the socket, with this port and client limit, and
the socket is open and stands in no slot but the server's. -/
structure Held (s : Fin N) (fd : Nat) (port : UInt16) (maxclients : UInt8) (k : Core N) :
    Prop where
  connected : (k.records s).connected = true
  trusted : (k.records s).trusted = true
  socket : (k.records s).socket = fd
  port : (k.records s).port = port
  maxclients : (k.records s).maxclients = maxclients
  alive : isOpen fd k.trace = true
  sole : ∀ j, k.InTable j → k.fds j = fd → j = (k.records s).index

/-- No other connected server has the socket. -/
def Others (s : Fin N) (fd : Nat) (k : Core N) : Prop :=
  ∀ t, t ≠ s → (k.records t).connected = true → (k.records t).socket ≠ fd

variable {s : Fin N} {fd : Nat} {port : UInt16} {maxclients : UInt8}

/-- While a session is held, no other connected server has its socket. -/
theorem Held.others {k : Core N} (h : k.Held s fd port maxclients) (hw : k.Wf) :
    k.Others s fd := by
  intro t ht hc he
  obtain ⟨hi, hfd⟩ := hw.slot t hc
  exact ht (hw.inj t s hc h.connected (h.sole _ hi (hfd.trans he)))

private theorem held_rebuild {k : Core N} (h : k.Held s fd port maxclients) (ho : k.Others s fd) :
    k.rebuild.Held s fd port maxclients := by
  have hr := rebuilt_rebuild k
  refine ⟨(hr.connected s).trans h.connected, (hr.trusted s).trans h.trusted,
    (hr.socket s).trans h.socket, (hr.port s).trans h.port,
    (hr.maxclients s).trans h.maxclients, by rw [hr.trace]; exact h.alive, fun j hj he ↦ ?_⟩
  obtain ⟨t, hc, rfl⟩ := hr.onto j hj
  rw [(hr.slot t hc).2] at he
  by_cases ht : t = s
  · rw [ht]
  · exact absurd he (ho t ht hc)

/-- Closing another socket leaves the session alone. -/
theorem held_closed {k : Core N} (h : k.Held s fd port maxclients) {g : Nat} (hg : g ≠ fd) :
    (k.log (.closed g)).Held s fd port maxclients := by
  refine ⟨h.connected, h.trusted, h.socket, h.port, h.maxclients, ?_, h.sole⟩
  change (if g = fd then false else isOpen fd k.trace) = true
  rw [if_neg hg]
  exact h.alive

/-- Changes of other records leave the session alone. -/
theorem held_updateRecord {k : Core N} (h : k.Held s fd port maxclients) {q2 : Fin N}
    (hq : s ≠ q2) (f : Record → Record) : (k.updateRecord q2 f).Held s fd port maxclients := by
  have hr := updateRecord_of_ne k f hq
  refine ⟨?_, ?_, ?_, ?_, ?_, h.alive, fun j hj he ↦ ?_⟩
  · rw [hr]
    exact h.connected
  · rw [hr]
    exact h.trusted
  · rw [hr]
    exact h.socket
  · rw [hr]
    exact h.port
  · rw [hr]
    exact h.maxclients
  · rw [hr]
    exact h.sole j hj he

/-- Changes of a record keep the socket from others if the new record has another one or is
not connected. -/
theorem others_updateRecord {k : Core N} (h : k.Others s fd) {q2 : Fin N} {f : Record → Record}
    (hf : (f (k.records q2)).connected = true → (f (k.records q2)).socket ≠ fd) :
    (k.updateRecord q2 f).Others s fd := by
  intro t ht hc
  by_cases hq : t = q2
  · rw [hq, updateRecord_self] at hc ⊢
    exact hf hc
  · rw [updateRecord_of_ne _ _ hq] at hc ⊢
    exact h t ht hc

-- The state between two operations of another server.
private structure Bystander (s q2 : Fin N) (fd : Nat) (port : UInt16) (maxclients : UInt8)
    (k : Core N) : Prop where
  held : k.Held s fd port maxclients
  others : k.Others s fd
  apart : (k.records q2).socket ≠ fd

private theorem bystander_grant {k : Core N} {q2 : Fin N} (hq : s ≠ q2)
    (h : Bystander s q2 fd port maxclients k) :
    Bystander s q2 fd port maxclients (k.grant q2) := by
  have hu := held_updateRecord h.held hq fun r ↦ { r with trusted := true }
  refine ⟨⟨hu.connected, hu.trusted, hu.socket, hu.port, hu.maxclients, hu.alive, hu.sole⟩,
    fun t ht hc ↦ ?_, ?_⟩
  · rw [grant_connected] at hc
    rw [grant_socket]
    exact h.others t ht hc
  · rw [grant_socket]
    exact h.apart

private theorem bystander_close {k : Core N} {q2 : Fin N} (hq : s ≠ q2)
    (h : Bystander s q2 fd port maxclients k) :
    Bystander s q2 fd port maxclients (k.close q2) := by
  have hu := held_updateRecord (held_closed h.held h.apart) hq fun r ↦
    { r with connected := false, index := 0 }
  have ho : Others s fd ((k.log (.closed (k.records q2).socket)).updateRecord q2 fun r ↦
      { r with connected := false, index := 0 }) :=
    others_updateRecord (k := k.log _) h.others fun hc ↦ by cases hc
  refine ⟨held_rebuild hu ho, fun t ht hc ↦ ?_, ?_⟩
  · rw [close_connected, Bool.and_eq_true] at hc
    rw [close_socket]
    exact h.others t ht hc.2
  · rw [close_socket]
    exact h.apart

private theorem bystander_applyAll {k : Core N} {q2 : Fin N} (hq : s ≠ q2)
    (h : Bystander s q2 fd port maxclients k) (ops : List SessionOp) :
    Bystander s q2 fd port maxclients (k.applyAll q2 ops) := by
  refine applyAll_invariant (fun k op _ hk ↦ ?_) h
  cases op with
  | grant => exact bystander_grant hq hk
  | close => exact bystander_close hq hk

end Core

/-- The effect concerns other sockets than `fd`. -/
def Effect.Elsewhere (fd : Nat) (k : Core N) : Effect N → Prop
  | .idle => True
  | .accept _ => True
  | .hangUp _ i => k.fds i ≠ fd
  | .reject i => k.fds i ≠ fd
  | .peer i _ => k.fds i ≠ fd
  | .hello _ i _ _ _ => k.fds i ≠ fd
  | .message _ i _ => k.fds i ≠ fd

/-- The effect is no HELLO with the key of `s`. -/
def Effect.Spares (s : Fin N) : Effect N → Prop
  | .hello q2 _ _ _ _ => q2 ≠ s
  | _ => True

namespace Core

variable {s : Fin N} {fd : Nat} {port : UInt16} {maxclients : UInt8}

private theorem held_accept {k : Core N} (h : k.Held s fd port maxclients) {g : Nat}
    (hg : isOpen g k.trace = false) : (k.accept g).Held s fd port maxclients := by
  have hne : g ≠ fd := by
    rintro rfl
    rw [h.alive] at hg
    cases hg
  refine ⟨h.connected, h.trusted, h.socket, h.port, h.maxclients, ?_, fun j hj he ↦ ?_⟩
  · change (if g = fd then true else isOpen fd k.trace) = true
    rw [if_neg hne]
    exact h.alive
  · change Function.update k.fds k.count g j = fd at he
    by_cases hjk : j = k.count
    · rw [hjk, Function.update_self] at he
      exact absurd he hne
    · rw [Function.update_of_ne hjk] at he
      have hlt : j < k.count + 1 := hj.2
      exact h.sole j ⟨hj.1, by omega⟩ he

private theorem held_reject {k : Core N} (h : k.Held s fd port maxclients) (ho : k.Others s fd)
    {i : Nat} (hi : k.fds i ≠ fd) : (k.reject i).Held s fd port maxclients :=
  held_rebuild (held_closed h hi) ho

-- The owner of a slot with another socket is another server, with that socket.
private theorem bystander_of_slot {k : Core N} (hw : k.Wf) (h : k.Held s fd port maxclients)
    {q2 : Fin N} {i : Nat} (hi : k.InTable i) (hq : (k.records q2).index = i)
    (hne : k.fds i ≠ fd) : s ≠ q2 ∧ Bystander s q2 fd port maxclients k := by
  have hslot := (hw.slot q2 (hw.connected_of_index hq hi.1)).2
  rw [hq] at hslot
  have hapart : (k.records q2).socket ≠ fd := by
    rw [← hslot]
    exact hne
  refine ⟨?_, h, h.others hw, hapart⟩
  rintro rfl
  exact hapart h.socket

/-- Effects on other sockets leave a session in possession of its own. -/
theorem held_run {k : Core N} (hw : k.Wf) (h : k.Held s fd port maxclients) {e : Effect N}
    (he : e.Valid k) (hs : e.Elsewhere fd k) (hq : e.Spares s) :
    (e.run k).Held s fd port maxclients := by
  have ho := h.others hw
  cases e with
  | idle => exact h
  | accept g => exact held_accept h he.2
  | hangUp q2 i =>
    obtain ⟨hq, _⟩ := bystander_of_slot hw h he.1 he.2 hs
    exact held_reject (held_updateRecord h hq _)
      (others_updateRecord ho fun hc ↦ by cases hc) hs
  | reject i => exact held_reject h ho hs
  | peer i known =>
    cases known with
    | true => exact held_reject h ho hs
    | false => exact held_rebuild h ho
  | hello q2 i p m answer =>
    have hu := held_updateRecord h hq.symm fun r ↦
      { r with index := i, socket := k.fds i, connected := true, port := p, maxclients := m }
    have hb : (k.bind q2 i p m).Held s fd port maxclients :=
      ⟨hu.connected, hu.trusted, hu.socket, hu.port, hu.maxclients, hu.alive, hu.sole⟩
    have hbo : (k.updateRecord q2 fun r ↦
        { r with index := i, socket := k.fds i, connected := true, port := p,
                 maxclients := m }).Others s fd := others_updateRecord ho fun _ ↦ hs
    cases answer with
    | some ops =>
      refine (bystander_applyAll hq.symm ⟨hb, hbo, ?_⟩ ops).held
      rw [bind, log_records, updateRecord_self]
      exact hs
    | none => exact held_reject hb hbo hs
  | message q2 i ops =>
    obtain ⟨hq, hby⟩ := bystander_of_slot hw h he.1 he.2 hs
    exact (bystander_applyAll hq hby ops).held

end Core

end Q2Admin
