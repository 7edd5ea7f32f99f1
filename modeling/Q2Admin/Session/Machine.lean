import Q2Admin.Model.State
import Mathlib.Data.Fin.Basic

/-!
# The session machine

Library `Q2Admin.Session`. The abstract model of the event loop: which socket stands in
which slot of the poll table, which server record claims it, and the history of accepts,
closes, bindings and successful verifications. Messages appear only through the grants
and closes they bring about. `rebuild` is specified by `Rebuilt`, which is all the
invariants use of it.
-/

namespace Q2Admin

variable {N : Nat}

/-- What the event loop knows of a registered server. -/
structure Record where
  index : Nat
  connected : Bool
  socket : Nat
  key : UInt32
  port : UInt16
  maxclients : UInt8
  trusted : Bool

/-- The record apart from its place in the table. -/
def Record.unplaced (r : Record) : Record := { r with index := 0 }

/-- A state of the session machine; its trace holds session events only. -/
structure Core (N : Nat) where
  listener : Nat
  fds : Nat → Nat
  count : Nat
  records : Fin N → Record
  trace : List Event

namespace Core

/-- Change the record of one server. -/
def updateRecord (k : Core N) (q2 : Fin N) (f : Record → Record) : Core N :=
  { k with records := Function.update k.records q2 (f (k.records q2)) }

/-- An updated record is what has been made of it. -/
@[simp] theorem updateRecord_self (k : Core N) (q2 : Fin N) (f : Record → Record) :
    (k.updateRecord q2 f).records q2 = f (k.records q2) := Function.update_self _ _ _

/-- The other records stay as they are. -/
@[simp] theorem updateRecord_of_ne (k : Core N) {q2 s : Fin N} (f : Record → Record)
    (h : s ≠ q2) : (k.updateRecord q2 f).records s = k.records s :=
  Function.update_of_ne h _ _

/-- Updating a record leaves the descriptors of the slots. -/
@[simp] theorem updateRecord_fds (k : Core N) (q2 : Fin N) (f : Record → Record) :
    (k.updateRecord q2 f).fds = k.fds := rfl

/-- Updating a record notes nothing. -/
@[simp] theorem updateRecord_trace (k : Core N) (q2 : Fin N) (f : Record → Record) :
    (k.updateRecord q2 f).trace = k.trace := rfl

/-- Note a session event. -/
def log (k : Core N) (e : Event) : Core N := { k with trace := e :: k.trace }

/-- Noting an event leaves the records. -/
@[simp] theorem log_records (k : Core N) (e : Event) : (k.log e).records = k.records := rfl

/-- Noting an event leaves the descriptors of the slots. -/
@[simp] theorem log_fds (k : Core N) (e : Event) : (k.log e).fds = k.fds := rfl

/-- An event is noted in front of the others. -/
@[simp] theorem log_trace (k : Core N) (e : Event) : (k.log e).trace = e :: k.trace := rfl

/-- Enter a server into the table if it is connected, at the next free slot. -/
def place (p : Nat × Core N) (q2 : Fin N) : Nat × Core N :=
  if (p.2.records q2).connected then
    (p.1 + 1,
      { p.2 with
        fds := Function.update p.2.fds p.1 (p.2.records q2).socket
        records := Function.update p.2.records q2 { p.2.records q2 with index := p.1 } })
  else p

/-- Fill the table with the sockets of the connected servers in list order. -/
def rebuild (k : Core N) : Core N :=
  let p := (List.finRange N).foldl place (1, k)
  { p.2 with count := p.1 }

/-- A new socket takes the next slot. -/
def accept (k : Core N) (fd : Nat) : Core N :=
  { k with
    fds := Function.update k.fds k.count fd
    count := k.count + 1
    trace := .accepted fd :: k.trace }

/-- Close the socket in a slot. -/
def shut (k : Core N) (i : Nat) : Core N := k.log (.closed (k.fds i))

/-- Closing the socket of a slot leaves the records. -/
@[simp] theorem shut_records (k : Core N) (i : Nat) : (k.shut i).records = k.records := rfl

/-- Closing the socket of a slot is noted. -/
@[simp] theorem shut_trace (k : Core N) (i : Nat) :
    (k.shut i).trace = .closed (k.fds i) :: k.trace := rfl

/-- Close the socket in a slot that no server owns. -/
def reject (k : Core N) (i : Nat) : Core N := (k.shut i).rebuild

/-- The peer has closed the socket in the slot of a server. -/
def hangUp (k : Core N) (q2 : Fin N) (i : Nat) : Core N :=
  ((k.updateRecord q2 fun r ↦
    { r with connected := false, index := 0, socket := 0 }).shut i).rebuild

/-- Bind the socket in a slot to a server. -/
def bind (k : Core N) (q2 : Fin N) (i : Nat) (port : UInt16) (maxclients : UInt8) : Core N :=
  (k.updateRecord q2 fun r ↦
    { r with
      index := i, socket := k.fds i, connected := true, port := port,
      maxclients := maxclients }).log (.bound q2 (k.fds i))

/-- The server has proved its identity on its socket. -/
def grant (k : Core N) (q2 : Fin N) : Core N :=
  (k.updateRecord q2 fun r ↦ { r with trusted := true }).log (.verified q2 (k.records q2).socket)

/-- Close the session of a server. -/
def close (k : Core N) (q2 : Fin N) : Core N :=
  ((k.log (.closed (k.records q2).socket)).updateRecord q2 fun r ↦
    { r with connected := false, index := 0 }).rebuild

end Core

/-- What a command of a server does to its session. -/
inductive SessionOp
  | grant | close
  deriving DecidableEq

namespace Core

/-- One operation of a server. -/
def apply (q2 : Fin N) (k : Core N) : SessionOp → Core N
  | .grant => k.grant q2
  | .close => k.close q2

/-- The operations of one message, in order. -/
def applyAll (q2 : Fin N) (ops : List SessionOp) (k : Core N) : Core N := ops.foldl (apply q2) k

end Core

/-- What serving one slot of the table comes to. -/
inductive Effect (N : Nat)
  | idle
  | accept (fd : Nat)
  | hangUp (q2 : Fin N) (i : Nat)
  /-- Neither a peer nor a registered server. -/
  | reject (i : Nat)
  /-- A peer, whose request byte is known or not. -/
  | peer (i : Nat) (known : Bool)
  /-- A HELLO for a registered server: answered, with the operations of the commands behind
  it, or not answered. -/
  | hello (q2 : Fin N) (i : Nat) (port : UInt16) (maxclients : UInt8)
      (answer : Option (List SessionOp))
  /-- A message from a server in its slot. -/
  | message (q2 : Fin N) (i : Nat) (ops : List SessionOp)

/-- A connection is accepted. -/
def Effect.isAccept : Effect N → Bool
  | .accept _ => true
  | _ => false

/-- The state after an effect. -/
def Effect.run : Effect N → Core N → Core N
  | .idle, k => k
  | .accept fd, k => k.accept fd
  | .hangUp q2 i, k => k.hangUp q2 i
  | .reject i, k => k.reject i
  | .peer i true, k => k.reject i
  | .peer _ false, k => k.rebuild
  | .hello q2 i port maxclients (some ops), k => (k.bind q2 i port maxclients).applyAll q2 ops
  | .hello q2 i port maxclients none, k => (k.bind q2 i port maxclients).reject i
  | .message q2 _ ops, k => k.applyAll q2 ops

namespace Core

/-- The slot at `i` is none of the listener's and inside the table. -/
def InTable (k : Core N) (i : Nat) : Prop := 1 ≤ i ∧ i < k.count

/-- No server claims the slot. -/
def Unclaimed (k : Core N) (i : Nat) : Prop := ∀ s, (k.records s).index ≠ i

end Core

/-- What serving a slot relies on: the slot, who claims it, and a fresh descriptor. -/
def Effect.Valid (k : Core N) : Effect N → Prop
  | .idle => True
  | .accept fd => fd ≠ k.listener ∧ isOpen fd k.trace = false
  | .hangUp q2 i => k.InTable i ∧ (k.records q2).index = i
  | .reject i => k.InTable i ∧ k.Unclaimed i
  | .peer i _ => k.InTable i ∧ k.Unclaimed i
  | .hello _ i _ _ _ => k.InTable i ∧ k.Unclaimed i
  | .message q2 i _ => k.InTable i ∧ (k.records q2).index = i

/-- How a state looks after the table has been rebuilt. -/
structure Rebuilt (k k' : Core N) : Prop where
  listener : k'.listener = k.listener
  trace : k'.trace = k.trace
  fds_zero : k'.fds 0 = k.fds 0
  count_pos : 1 ≤ k'.count
  same : ∀ s, (k'.records s).unplaced = (k.records s).unplaced
  idle : ∀ s, (k.records s).connected = false → k'.records s = k.records s
  slot : ∀ s, (k.records s).connected = true →
    k'.InTable (k'.records s).index ∧ k'.fds (k'.records s).index = (k.records s).socket
  inj : ∀ s t, (k.records s).connected = true → (k.records t).connected = true →
    (k'.records s).index = (k'.records t).index → s = t
  onto : ∀ i, k'.InTable i → ∃ s, (k.records s).connected = true ∧ (k'.records s).index = i

-- The state between two rounds of the rebuilding loop, with the servers `done` entered and `i` the
-- next free slot.
private structure Placed (k₀ : Core N) (done : List (Fin N)) (i : Nat) (k : Core N) : Prop where
  listener : k.listener = k₀.listener
  trace : k.trace = k₀.trace
  fds_zero : k.fds 0 = k₀.fds 0
  pos : 1 ≤ i
  same : ∀ s, (k.records s).unplaced = (k₀.records s).unplaced
  untouched : ∀ s, s ∉ done ∨ (k₀.records s).connected = false → k.records s = k₀.records s
  slot : ∀ s ∈ done, (k₀.records s).connected = true →
    (1 ≤ (k.records s).index ∧ (k.records s).index < i) ∧
      k.fds (k.records s).index = (k₀.records s).socket
  inj : ∀ s ∈ done, ∀ t ∈ done, (k₀.records s).connected = true →
    (k₀.records t).connected = true → (k.records s).index = (k.records t).index → s = t
  onto : ∀ j, 1 ≤ j → j < i →
    ∃ s ∈ done, (k₀.records s).connected = true ∧ (k.records s).index = j

private theorem place_connected {k : Core N} {q2 : Fin N} (i : Nat)
    (hc : (k.records q2).connected = true) :
    ∃ k', Core.place (i, k) q2 = (i + 1, k') ∧ k'.listener = k.listener ∧
      k'.trace = k.trace ∧ k'.fds i = (k.records q2).socket ∧
      (∀ j, j ≠ i → k'.fds j = k.fds j) ∧ (k'.records q2).index = i ∧
      (k'.records q2).unplaced = (k.records q2).unplaced ∧
      ∀ s, s ≠ q2 → k'.records s = k.records s := by
  have hself : Function.update k.records q2 { k.records q2 with index := i } q2 =
      { k.records q2 with index := i } := Function.update_self _ _ _
  refine ⟨_, if_pos hc, rfl, rfl, Function.update_self _ _ _,
    fun j hj ↦ Function.update_of_ne hj _ _, ?_, ?_, fun s hs ↦ Function.update_of_ne hs _ _⟩
  · exact (congrArg Record.index hself :)
  · exact (congrArg Record.unplaced hself :)

private theorem placed_enter {k₀ k : Core N} {done : List (Fin N)} {i : Nat}
    (h : Placed k₀ done i k) {q2 : Fin N} (hq : q2 ∉ done)
    (hc : (k₀.records q2).connected = true) :
    Placed k₀ (done ++ [q2]) (Core.place (i, k) q2).1 (Core.place (i, k) q2).2 := by
  have hrec : k.records q2 = k₀.records q2 := h.untouched q2 (.inl hq)
  have hne : ∀ s ∈ done, s ≠ q2 := fun s hs he ↦ hq (he ▸ hs)
  have hpos := h.pos
  have hc' : (k.records q2).connected = true := by
    rw [hrec]
    exact hc
  obtain ⟨k', hp, hl, ht, hfi, hfd, hself, hsame, hother⟩ := place_connected i hc'
  rw [hp]
  constructor
  case listener => exact hl.trans h.listener
  case trace => exact ht.trans h.trace
  case fds_zero => exact (hfd 0 (by omega)).trans h.fds_zero
  case pos => exact Nat.le_succ_of_le hpos
  case same =>
    intro s
    by_cases hs : s = q2
    · subst hs
      rw [hsame, hrec]
    · rw [hother s hs]
      exact h.same s
  case untouched =>
    intro s hs
    have hsq : s ≠ q2 := by
      rintro rfl
      rcases hs with hs | hs
      · exact hs (List.mem_append_right _ List.mem_cons_self)
      · rw [hc] at hs
        cases hs
    rw [hother s hsq]
    exact h.untouched s (hs.imp_left fun hs hd ↦ hs (List.mem_append_left _ hd))
  case slot =>
    intro s hs hcs
    rcases List.mem_append.mp hs with hs | hs
    · obtain ⟨⟨h1, h2⟩, h3⟩ := h.slot s hs hcs
      rw [hother s (hne s hs)]
      exact ⟨⟨h1, by omega⟩, (hfd _ (by omega)).trans h3⟩
    · rw [List.mem_singleton.mp hs, hself]
      exact ⟨⟨hpos, Nat.lt_succ_self i⟩, by rw [hfi, hrec]⟩
  case inj =>
    -- The slots given out before are below the new one.
    intro s hs t ht hcs hct he
    rcases List.mem_append.mp hs with hs | hs
    · rcases List.mem_append.mp ht with ht | ht
      · rw [hother s (hne s hs), hother t (hne t ht)] at he
        exact h.inj s hs t ht hcs hct he
      · rw [List.mem_singleton.mp ht, hself, hother s (hne s hs)] at he
        have hlt := (h.slot s hs hcs).1.2
        omega
    · rcases List.mem_append.mp ht with ht | ht
      · rw [List.mem_singleton.mp hs, hself, hother t (hne t ht)] at he
        have hlt := (h.slot t ht hct).1.2
        omega
      · rw [List.mem_singleton.mp hs, List.mem_singleton.mp ht]
  case onto =>
    intro j h1 h2
    by_cases hj : j = i
    · exact ⟨q2, List.mem_append_right _ List.mem_cons_self, hc, hself.trans hj.symm⟩
    · obtain ⟨s, hs, hcs, hi⟩ := h.onto j h1 (by omega)
      refine ⟨s, List.mem_append_left _ hs, hcs, ?_⟩
      rw [hother s (hne s hs)]
      exact hi

private theorem placed_skip {k₀ k : Core N} {done : List (Fin N)} {i : Nat}
    (h : Placed k₀ done i k) {q2 : Fin N} (hc : (k₀.records q2).connected = false) :
    Placed k₀ (done ++ [q2]) i k := by
  have hmem {s : Fin N} (hcs : (k₀.records s).connected = true) (hs : s ∈ done ++ [q2]) :
      s ∈ done := by
    rcases List.mem_append.mp hs with hs | hs
    · exact hs
    · rw [List.mem_singleton.mp hs, hc] at hcs
      cases hcs
  refine ⟨h.listener, h.trace, h.fds_zero, h.pos, h.same, ?_, ?_, ?_, ?_⟩
  · exact fun s hs ↦ h.untouched s (hs.imp_left fun hs hd ↦ hs (List.mem_append_left _ hd))
  · exact fun s hs hcs ↦ h.slot s (hmem hcs hs) hcs
  · exact fun s hs t ht hcs hct ↦ h.inj s (hmem hcs hs) t (hmem hct ht) hcs hct
  · intro j h1 h2
    obtain ⟨s, hs, hcs⟩ := h.onto j h1 h2
    exact ⟨s, List.mem_append_left _ hs, hcs⟩

private theorem placed_step {k₀ k : Core N} {done : List (Fin N)} {i : Nat}
    (h : Placed k₀ done i k) {q2 : Fin N} (hq : q2 ∉ done) :
    Placed k₀ (done ++ [q2]) (Core.place (i, k) q2).1 (Core.place (i, k) q2).2 := by
  by_cases hc : (k₀.records q2).connected = true
  · exact placed_enter h hq hc
  · have hp : Core.place (i, k) q2 = (i, k) := if_neg (by
      rw [h.untouched q2 (.inl hq)]
      exact hc)
    rw [hp]
    exact placed_skip h (Bool.eq_false_iff.mpr hc)

private theorem placed_foldl {k₀ : Core N} (l done : List (Fin N)) {p : Nat × Core N}
    (hnd : (done ++ l).Nodup) (h : Placed k₀ done p.1 p.2) :
    Placed k₀ (done ++ l) (l.foldl Core.place p).1 (l.foldl Core.place p).2 := by
  induction l generalizing done p with
  | nil =>
    rw [List.append_nil]
    exact h
  | cons q2 l ih =>
    have hq : q2 ∉ done := fun hd ↦
      (List.nodup_append.mp hnd).2.2 q2 hd q2 List.mem_cons_self rfl
    have he : done ++ q2 :: l = done ++ [q2] ++ l := by simp
    rw [he] at hnd ⊢
    exact ih (done ++ [q2]) hnd (placed_step h hq)

/-- Rebuilding the table lists exactly the connected servers, one slot each. -/
theorem rebuilt_rebuild (k : Core N) : Rebuilt k k.rebuild := by
  have hstart : Placed k [] 1 k :=
    ⟨rfl, rfl, rfl, Nat.le_refl 1, fun _ ↦ rfl, fun _ _ ↦ rfl, fun _ h ↦ absurd h List.not_mem_nil,
      fun _ h ↦ absurd h List.not_mem_nil, fun j h1 h2 ↦ by omega⟩
  have h := placed_foldl (List.finRange N) [] (p := (1, k)) (List.nodup_finRange N) hstart
  have hall (s : Fin N) : s ∈ [] ++ List.finRange N := List.mem_finRange s
  refine ⟨h.listener, h.trace, h.fds_zero, h.pos, h.same, fun s hs ↦ h.untouched s (.inr hs),
    fun s hs ↦ h.slot s (hall s) hs, fun s t ↦ h.inj s (hall s) t (hall t), fun i hi ↦ ?_⟩
  obtain ⟨s, _, hs⟩ := h.onto i hi.1 hi.2
  exact ⟨s, hs⟩

namespace Rebuilt

variable {k k' : Core N}

/-- A rebuild leaves who is connected. -/
theorem connected (h : Rebuilt k k') (s : Fin N) :
    (k'.records s).connected = (k.records s).connected :=
  (congrArg Record.connected (h.same s) :)

/-- A rebuild leaves the sockets of the servers. -/
theorem socket (h : Rebuilt k k') (s : Fin N) :
    (k'.records s).socket = (k.records s).socket :=
  (congrArg Record.socket (h.same s) :)

/-- A rebuild leaves the ports of the servers. -/
theorem port (h : Rebuilt k k') (s : Fin N) :
    (k'.records s).port = (k.records s).port :=
  (congrArg Record.port (h.same s) :)

/-- A rebuild leaves how many clients the servers admit. -/
theorem maxclients (h : Rebuilt k k') (s : Fin N) :
    (k'.records s).maxclients = (k.records s).maxclients :=
  (congrArg Record.maxclients (h.same s) :)

/-- A rebuild leaves who is trusted. -/
theorem trusted (h : Rebuilt k k') (s : Fin N) :
    (k'.records s).trusted = (k.records s).trusted :=
  (congrArg Record.trusted (h.same s) :)

end Rebuilt

end Q2Admin
