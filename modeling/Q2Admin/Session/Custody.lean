import Q2Admin.Base.Handles
import Q2Admin.Session.Turn
import Q2Admin.Session.Footprint

/-!
# Custody of crypto objects

Library `Q2Admin.Session`. The pointers `publickey`, `e_ctx` and `d_ctx` of a server keep their
values when the objects behind them are freed. `Custody` follows, from the requests that come for
a server alone, what is behind them, and says which requests they can take. `World.Kept` ties it
to the records and to what has happened to the objects; the lemmas say what keeps it.
-/

namespace Q2Admin

open Exec

variable {N : Nat} {α : Type}

/-- What an event does to the handles behind the pointers of the servers. A HELLO begins a new
connection of its server. -/
def Event.handleOp : Event → Option (HandleOp (Nat × Cell))
  | .created q2 cell h => some (.create (q2, cell) h)
  | .used q2 cell h => some (.use (q2, cell) h)
  | .released q2 cell h => some (.free (q2, cell) h)
  | .bound q2 _ => some (.renew fun slot ↦ slot.1 = q2)
  | _ => none

/-- What has happened to the handles, newest first. -/
def World.handleOps (w : World N) : List (HandleOp (Nat × Cell)) :=
  w.trace.filterMap Event.handleOp

/-- What a pointer of a server holds. -/
def World.held (w : World N) (q2 : Fin N) (cell : Cell) : Holding :=
  HandleOp.holding (q2.val, cell) w.handleOps

/-- What comes for a server and concerns its crypto objects. A connection that merely ends is not
among it. -/
inductive Request
  | hello (keyFile : KeyFile) (encrypted answered : Bool)
  | auth (accepted : Bool)
  | quit
  deriving DecidableEq

/-- What is behind a pointer. -/
inductive Grip
  /-- Nothing, and the pointer is null. -/
  | null
  | live
  /-- The object has been freed, and the pointer still has its address. -/
  | freed
  /-- An object that the pointer has lost. -/
  | lost
  deriving DecidableEq

/-- What is behind the public key and behind both contexts of a server. -/
structure Custody where
  key : Grip
  contexts : Grip

/-- What is behind a pointer after its object has been freed, unless it is null. -/
def Grip.free : Grip → Grip
  | live => freed
  | g => g

namespace Custody

/-- The start. -/
def start : Custody := ⟨.null, .null⟩

/-- What a request leaves. -/
def after (k : Custody) : Request → Custody
  | .hello (.holds _) _ answered => { k with key := if answered then .live else .freed }
  | .hello .unreadable _ _ => { k with key := .lost }
  | .hello _ _ _ => { k with key := if k.key = .live ∨ k.key = .lost then .lost else .null }
  | .auth true => { k with contexts := .live }
  | .auth false | .quit => ⟨k.key.free, k.contexts.free⟩

/-- The request can be taken: a HELLO allocates a key object only if the last one has been freed,
and asks for encryption only if the server has never been verified; an AUTH finds a key object;
contexts are allocated only if the last ones have been freed, and nothing is freed that has
been freed before. -/
def Admits (k : Custody) : Request → Prop
  | .hello keyFile encrypted _ =>
    (keyFile.creates = true → k.key ≠ .live ∧ k.key ≠ .lost) ∧
      (encrypted = true → k.contexts = .null)
  | .auth true => k.key = .live ∧ k.contexts ≠ .live
  | .auth false => k.key = .live ∧ k.contexts ≠ .freed
  | .quit => k.key ≠ .freed ∧ k.contexts ≠ .freed

/-- A HELLO leaves the contexts alone. -/
theorem after_hello_contexts (k : Custody) (f : KeyFile) (encrypted answered : Bool) :
    (k.after (.hello f encrypted answered)).contexts = k.contexts := by
  cases f <;> rfl

/-- The requests can be taken one after the other. -/
def AdmitsAll : Custody → List Request → Prop
  | _, [] => True
  | k, r :: rs => k.Admits r ∧ (k.after r).AdmitsAll rs

end Custody

/-- What a command requests of a server with this record. -/
def Command.request (c : Crypto) (s : Q2Server) : Command → Option Request
  | .auth cipher => some (.auth (s.accepts c cipher))
  | .quit => some .quit
  | _ => none

private theorem request_congr (c : Crypto) {s s' : Q2Server} (h : s.credentials = s'.credentials)
    (cmd : Command) : cmd.request c s = cmd.request c s' := by
  cases cmd with
  | auth cipher => exact congrArg (fun b ↦ some (Request.auth b)) (accepts_congr c h cipher)
  | _ => rfl

/-- What comes for a server when a slot is served. -/
def World.requests (c : Crypto) (w : World N) (env : Answer) (i : Nat) (s : Fin N) :
    List Request :=
  (match w.greeting env i with
    | some (q2, h, _) =>
      if s = q2 then
        [.hello env.hello.keyFile (h.encrypted ≠ 0) (env.hello.answers h.challenge)]
      else []
    | none => []) ++
  (match w.heard c env i with
    | some (q2, cmds) =>
      if s = q2 then cmds.filterMap (Command.request c (w.judge env i q2)) else []
    | none => [])

/-- What comes for a server in a step. -/
def moveRequests (c : Crypto) : Move → World N → Fin N → List Request
  | .poll _, _, _ => []
  | .serve env, w, s => w.requests c env w.scan s

/-- A step, with the custody of every server beside the state. -/
def stepCustody (c : Crypto) (m : Move) (p : World N × (Fin N → Custody)) :
    Option (World N × (Fin N → Custody)) :=
  (step c m p.1).map fun w ↦ (w, fun s ↦ (moveRequests c m p.1 s).foldl Custody.after (p.2 s))

/-- What comes in the next step can be taken. -/
def Admitted (c : Crypto) (m : Move) (p : World N × (Fin N → Custody)) : Prop :=
  ∀ s, (p.2 s).AdmitsAll (moveRequests c m p.1 s)

/-- What a public key pointer holds is as its custody says. -/
def KeyHeld (r : Q2Server) (held : Holding) : Grip → Prop
  | .null => r.publickey = none ∧ held.isLive = false
  | .live => ∃ k current, r.publickey = some k ∧ held = .live k.handle current ∧
    (r.connected = true → current = true)
  | .freed => held = .released
  | .lost => r.publickey = none

/-- What the context pointers hold is as their custody says. -/
def ContextsHeld (r : Q2Server) (heldE heldD : Holding) : Grip → Prop
  | .null => r.connection.eCtx = none ∧ r.connection.dCtx = none ∧ r.trusted = false ∧
    heldE.isLive = false ∧ heldD.isLive = false
  | .live => ∃ e d current, r.connection.eCtx = some e ∧ r.connection.dCtx = some d ∧
    heldE = .live e current ∧ heldD = .live d current ∧
    (r.connected = true → r.secure = true → current = true)
  | .freed => heldE = .released ∧ heldD = .released ∧ (r.connected = true → r.secure = false)
  | .lost => False

/-- The pointers of a server hold what its custody says. -/
structure Custody.Holds (k : Custody) (r : Q2Server) (held : Cell → Holding) : Prop where
  key : KeyHeld r (held .key) k.key
  contexts : ContextsHeld r (held .eCtx) (held .dCtx) k.contexts

/-- The part of a record that custody is about. -/
def Q2Server.grips (r : Q2Server) :
    Option RsaKey × Option Nat × Option Nat × Bool × Bool × Bool :=
  (r.publickey, r.connection.eCtx, r.connection.dCtx, r.connection.encrypted, r.trusted,
    r.connected)

/-- What a record is said to hold depends on its pointers only. -/
theorem Custody.Holds.congr {k : Custody} {r r' : Q2Server} {held : Cell → Holding}
    (h : k.Holds r held) (hr : r'.grips = r.grips) : k.Holds r' held := by
  have hkey : r'.publickey = r.publickey := congrArg Prod.fst hr
  have hE : r'.connection.eCtx = r.connection.eCtx := congrArg (fun p ↦ p.2.1) hr
  have hD : r'.connection.dCtx = r.connection.dCtx := congrArg (fun p ↦ p.2.2.1) hr
  have hencrypted : r'.connection.encrypted = r.connection.encrypted :=
    congrArg (fun p ↦ p.2.2.2.1) hr
  have htrusted : r'.trusted = r.trusted := congrArg (fun p ↦ p.2.2.2.2.1) hr
  have hconnected : r'.connected = r.connected := congrArg (fun p ↦ p.2.2.2.2.2) hr
  have hsecure : r'.secure = r.secure := by
    unfold Q2Server.secure
    rw [hencrypted, htrusted]
  constructor
  · unfold KeyHeld
    rw [hkey, hconnected]
    exact h.key
  · unfold ContextsHeld
    rw [hE, hD, htrusted, hconnected, hsecure]
    exact h.contexts

/-- Custody does not depend on the connection that ends. -/
theorem Custody.Holds.disconnect {k : Custody} {r : Q2Server} {held : Cell → Holding}
    (h : k.Holds r held) : k.Holds r.disconnect held := by
  obtain ⟨hkey, hcontexts⟩ := h
  constructor
  · cases hk : k.key with
    | live =>
      rw [hk] at hkey
      obtain ⟨key, current, hsome, hlive, _⟩ := hkey
      exact ⟨key, current, hsome, hlive, fun hc ↦ by cases hc⟩
    | _ =>
      rw [hk] at hkey
      exact hkey
  · cases hk : k.contexts with
    | live =>
      rw [hk] at hcontexts
      obtain ⟨e, d, current, he, hd, hE, hD, _⟩ := hcontexts
      exact ⟨e, d, current, he, hd, hE, hD, fun hc ↦ by cases hc⟩
    | freed =>
      rw [hk] at hcontexts
      exact ⟨hcontexts.1, hcontexts.2.1, fun hc ↦ by cases hc⟩
    | _ =>
      rw [hk] at hcontexts
      exact hcontexts

/-- The handles have had a sound life so far, and the custody of every server is right. -/
structure World.Kept (w : World N) (k : Fin N → Custody) : Prop where
  sound : HandleOp.Sound w.handleOps
  fresh : ∀ slot h, .create slot h ∈ w.handleOps → h < w.nextHandle
  holds : ∀ s, (k s).Holds (w.servers s) (w.held s)

private theorem keyHeld_notLive {r : Q2Server} {held : Holding} {g : Grip} (h : KeyHeld r held g)
    (hlive : g ≠ .live) (hlost : g ≠ .lost) : held.isLive = false := by
  cases g with
  | null => exact h.2
  | live => exact absurd rfl hlive
  | freed =>
    have hreleased : held = .released := h
    rw [hreleased]
    rfl
  | lost => exact absurd rfl hlost

private theorem contextsHeld_notLive {r : Q2Server} {heldE heldD : Holding} {g : Grip}
    (h : ContextsHeld r heldE heldD g) (hlive : g ≠ .live) :
    heldE.isLive = false ∧ heldD.isLive = false := by
  cases g with
  | null => exact h.2.2.2
  | live => exact absurd rfl hlive
  | freed =>
    rw [h.1, h.2.1]
    exact ⟨rfl, rfl⟩
  | lost => exact h.elim

/-- A new connection that is not enciphered, unless the server has never been verified. -/
theorem contextsHeld_age {r r' : Q2Server} {heldE heldD : Holding} {g : Grip}
    (h : ContextsHeld r heldE heldD g) (hE : r'.connection.eCtx = r.connection.eCtx)
    (hD : r'.connection.dCtx = r.connection.dCtx) (ht : r'.trusted = r.trusted)
    (hplain : g ≠ .null → r'.connection.encrypted = false) :
    ContextsHeld r' heldE.age heldD.age g := by
  have hsecure (hnull : g ≠ .null) : r'.secure = false := by
    unfold Q2Server.secure
    rw [hplain hnull, Bool.false_and]
  cases g with
  | null =>
    obtain ⟨hnoE, hnoD, htrusted, hliveE, hliveD⟩ := h
    refine ⟨hE.trans hnoE, hD.trans hnoD, ht.trans htrusted, ?_, ?_⟩
    · rwa [Holding.isLive_age]
    · rwa [Holding.isLive_age]
  | live =>
    obtain ⟨e, d, current, he, hd, hheldE, hheldD, _⟩ := h
    refine ⟨e, d, false, hE.trans he, hD.trans hd, ?_, ?_, fun _ hs ↦ ?_⟩
    · rw [hheldE]
      rfl
    · rw [hheldD]
      rfl
    · cases (hsecure Grip.noConfusion).symm.trans hs
  | freed =>
    refine ⟨?_, ?_, fun _ ↦ hsecure Grip.noConfusion⟩
    · rw [h.1]
      rfl
    · rw [h.2.1]
      rfl
  | lost => exact h.elim

/-- Traffic is enciphered with contexts of the current connection. -/
theorem contexts_of_secure {r : Q2Server} {heldE heldD : Holding} {g : Grip}
    (h : ContextsHeld r heldE heldD g) (hc : r.connected = true) (hs : r.secure = true) :
    ∃ e d, r.connection.eCtx = some e ∧ r.connection.dCtx = some d ∧
      heldE = .live e true ∧ heldD = .live d true := by
  cases g with
  | null =>
    unfold Q2Server.secure at hs
    rw [h.2.2.1, Bool.and_false] at hs
    cases hs
  | live =>
    obtain ⟨e, d, current, he, hd, hheldE, hheldD, hcurrent⟩ := h
    rw [hcurrent hc hs] at hheldE hheldD
    exact ⟨e, d, he, hd, hheldE, hheldD⟩
  | freed =>
    rw [h.2.2 hc] at hs
    cases hs
  | lost => exact h.elim

section Frames

variable {c : Crypto} {q2 : Fin N} {w w' : World N} {k : Fin N → Custody}

/-- What happens to no handle and leaves the pointers alone. -/
theorem World.Kept.frame (h : w.Kept k) (hops : w'.handleOps = w.handleOps)
    (hnext : w'.nextHandle = w.nextHandle)
    (hs : ∀ s, (w'.servers s).grips = (w.servers s).grips) : w'.Kept k := by
  have hheld (s : Fin N) : w'.held s = w.held s := by
    unfold World.held
    rw [hops]
  refine ⟨by rw [hops]; exact h.sound, ?_, fun s ↦ by rw [hheld]; exact (h.holds s).congr (hs s)⟩
  rw [hops, hnext]
  exact h.fresh

/-- Assignments to the record of one server. -/
theorem World.Kept.update (h : w.Kept k) (q2 : Fin N) {f : Q2Server → Q2Server}
    (hf : ∀ r, (f r).grips = r.grips) : (w.updateServer q2 f).Kept k := by
  refine h.frame rfl rfl fun s ↦ ?_
  by_cases hs : s = q2
  · rw [hs, World.updateServer_self, hf]
  · rw [World.updateServer_of_ne _ _ hs]

/-- Events that concern no handle. -/
theorem World.Kept.log (h : w.Kept k) {e : Event} (he : e.handleOp = none) :
    World.Kept { w with trace := e :: w.trace } k :=
  h.frame (List.filterMap_cons_none he) rfl fun _ ↦ rfl

/-- The use of a handle that is live and was created on the current connection. -/
theorem World.Kept.use (h : w.Kept k) {cell : Cell} {n : Nat}
    (hlive : w.held q2 cell = .live n true) :
    World.Kept { w with trace := .used q2 cell n :: w.trace } k := by
  refine ⟨⟨h.sound, hlive⟩, fun slot m hmem ↦ ?_, h.holds⟩
  exact h.fresh slot m (List.mem_of_ne_of_mem (by simp) hmem)

/-- Enciphering a message leaves the handles in custody. -/
theorem World.Kept.enciphering (h : w.Kept k) (hc : (w.servers q2).connected = true) :
    World.Kept { w with trace := w.enciphering q2 ++ w.trace } k := by
  unfold World.enciphering
  split
  · next hs =>
    obtain ⟨e, d, he, _, hheld, _⟩ := contexts_of_secure (h.holds q2).contexts hc hs
    rw [he]
    exact h.use hheld
  · exact h

/-- Deciphering a message leaves the handles in custody. -/
theorem World.Kept.deciphering (h : w.Kept k) (hc : (w.servers q2).connected = true)
    (m : MsgBuffer) :
    World.Kept { w with msg := m, trace := w.deciphering q2 ++ w.trace } k := by
  unfold World.deciphering
  have hmsg : World.Kept { w with msg := m } k := h.frame rfl rfl fun _ ↦ rfl
  split
  · next hs =>
    obtain ⟨e, d, _, hd, _, hheld⟩ := contexts_of_secure (h.holds q2).contexts hc hs
    rw [hd]
    exact hmsg.use hheld
  · exact hmsg

/-- A message that is sent leaves the handles in custody. -/
theorem World.Kept.posted (h : w.Kept k) (hc : (w.servers q2).connected = true)
    (plain wire : List UInt8) : (w.posted q2 plain wire).Kept k :=
  ((h.enciphering hc).update q2 (f := Q2Server.hold .zero) fun _ ↦ rfl).log rfl

/-- A rebuild of the poll table. -/
theorem World.Kept.rebuild (h : w.Kept k) (hrun : removeServerSocket.run w = .ok () w') :
    w'.Kept k := by
  obtain ⟨htrace, hnext, _, hrecords⟩ := removeServerSocket_frame hrun
  refine h.frame ?_ hnext fun s ↦ ?_
  · unfold World.handleOps
    rw [htrace]
  · rw [hrecords s]
    rfl

/-- A call of `SendBuffer`, whether it returns or not. -/
theorem World.Kept.send (h : w.Kept k) : (final (sendBuffer c q2) w).Kept k := by
  cases hrun : (sendBuffer c q2).run w with
  | ok u w' =>
    rw [final_of_ok hrun]
    rcases sendBuffer_cases hrun with ⟨_, rfl⟩ | ⟨hc, _, _, rfl⟩
    · exact h
    · exact h.posted hc _ _
  | error e w' =>
    rw [final_of_error hrun]
    rcases sendBuffer_error hrun with rfl | ⟨hc, rfl⟩
    · exact h
    · exact h.enciphering hc

/-- A change that is no check and no close. -/
theorem kept_change {P : Fin N → Prop} (hchange : Change c q2 P False w w') (h : w.Kept k) :
    w'.Kept k := by
  cases hchange with
  | write _ m _ => exact h.update _ fun _ ↦ rfl
  | send _ => exact h.send
  | format strings index => exact h.frame rfl rfl fun _ ↦ rfl
  | ping count => exact h.update _ fun _ ↦ rfl
  | tell t => exact h.update _ fun _ ↦ rfl
  | check hs => exact hs.elim
  | close hs => exact hs.elim

/-- A program that checks no answer and closes no connection. -/
theorem World.Kept.moves {P : Fin N → Prop} {x : M N α} {a : α} (h : w.Kept k)
    (hx : Moves (Change c q2 P False) x) (hrun : x.run w = .ok a w') : w'.Kept k := by
  have hfinal := hx.preserves (I := fun w ↦ w.Kept k) (fun _ _ ↦ kept_change) w h
  rwa [final_of_ok hrun] at hfinal

/-- Operations that do not touch a pointer. -/
theorem World.held_append {s : Fin N} {cell : Cell} {l : List (HandleOp (Nat × Cell))}
    (hops : w'.handleOps = l ++ w.handleOps)
    (hl : ∀ op ∈ l, op.touches (s.val, cell) = false) : w'.held s cell = w.held s cell := by
  unfold World.held
  rw [hops]
  exact HandleOp.holding_append hl

/-- What happens to the handles of one server. -/
theorem World.Kept.change (h : w.Kept k) {l : List (HandleOp (Nat × Cell))} {g : Custody}
    (hops : w'.handleOps = l ++ w.handleOps)
    (hl : ∀ op ∈ l, ∀ slot : Nat × Cell, slot.1 ≠ q2 → op.touches slot = false)
    (hsound : HandleOp.Sound (l ++ w.handleOps)) (hnext : w.nextHandle ≤ w'.nextHandle)
    (hfresh : ∀ slot n, .create slot n ∈ l → n < w'.nextHandle)
    (hs : ∀ s, s ≠ q2 → (w'.servers s).grips = (w.servers s).grips)
    (hg : g.Holds (w'.servers q2) (w'.held q2)) : w'.Kept (Function.update k q2 g) := by
  refine ⟨?_, fun slot n hmem ↦ ?_, fun s ↦ ?_⟩
  · rw [hops]
    exact hsound
  · rw [hops] at hmem
    rcases List.mem_append.mp hmem with hnew | hold
    · exact hfresh slot n hnew
    · exact Nat.lt_of_lt_of_le (h.fresh slot n hold) hnext
  · by_cases he : s = q2
    · rw [he, Function.update_self]
      exact hg
    · have hheld (cell : Cell) : w'.held s cell = w.held s cell :=
        World.held_append hops fun op hop ↦ hl op hop _ fun hv ↦ he (Fin.ext hv)
      rw [Function.update_of_ne he, show w'.held s = w.held s from funext hheld]
      exact (h.holds s).congr (hs s he)

/-- The handles of other servers than the one that a slot is of. -/
theorem touches_free {q2 : Fin N} {cell : Cell} {n : Nat} {slot : Nat × Cell}
    (hs : slot.1 ≠ q2) : (HandleOp.free (q2.val, cell) n).touches slot = false := by
  have hne : ¬ (q2.val, cell) = slot := fun he ↦ hs (congrArg Prod.fst he).symm
  simp [HandleOp.touches, hne]

/-- A server that is no longer connected. -/
theorem World.Kept.down (h : w.Kept k) {f : Q2Server → Q2Server}
    (hf : ∀ r, (f r).grips = r.disconnect.grips) : (w.updateServer q2 f).Kept k := by
  refine ⟨h.sound, h.fresh, fun s ↦ ?_⟩
  by_cases hs : s = q2
  · rw [hs, World.updateServer_self]
    exact (h.holds q2).disconnect.congr (hf _)
  · rw [World.updateServer_of_ne _ _ hs]
    exact h.holds s

/-- The public key is freed, unless its pointer is null. -/
theorem World.Kept.freeKey (h : w.Kept k) (hkey : (k q2).key ≠ .freed) :
    World.Kept { w with
      trace := World.releasing q2 .key ((w.servers q2).publickey.map RsaKey.handle) ++ w.trace }
      (Function.update k q2 ⟨(k q2).key.free, (k q2).contexts⟩) := by
  have hheld := (h.holds q2).key
  have hnull (hnone : (w.servers q2).publickey = none) (hfree : (k q2).key.free = (k q2).key) :
      World.Kept { w with
        trace := World.releasing q2 .key ((w.servers q2).publickey.map RsaKey.handle) ++ w.trace }
        (Function.update k q2 ⟨(k q2).key.free, (k q2).contexts⟩) := by
    rw [hnone, hfree, Function.update_eq_self]
    exact h
  cases hgrip : (k q2).key with
  | null =>
    rw [hgrip] at hheld hnull
    exact hnull hheld.1 rfl
  | lost =>
    rw [hgrip] at hheld hnull
    exact hnull hheld rfl
  | freed => exact absurd hgrip hkey
  | live =>
    rw [hgrip] at hheld
    obtain ⟨key, current, hsome, hlive, _⟩ := hheld
    rw [hsome]
    let w₁ : World N := { w with trace := .released q2 .key key.handle :: w.trace }
    have hother (cell : Cell) (hcell : .key ≠ cell) : w₁.held q2 cell = w.held q2 cell :=
      World.held_append (l := [.free (q2.val, .key) key.handle]) rfl
        (by simp [HandleOp.touches, hcell])
    have hcontexts := (h.holds q2).contexts
    rw [← hother .eCtx Cell.noConfusion, ← hother .dCtx Cell.noConfusion] at hcontexts
    change w₁.Kept _
    refine h.change (l := [.free (q2.val, .key) key.handle]) rfl ?_
      ⟨h.sound, current, hlive⟩ (Nat.le_refl _) (by simp) (fun _ _ ↦ rfl)
      ⟨if_pos rfl, hcontexts⟩
    intro op hop slot hs
    rw [List.mem_singleton.mp hop]
    exact touches_free hs

/-- The contexts of a server that is not connected are freed, unless their pointers are null. -/
theorem World.Kept.freeContexts (h : w.Kept k) (hc : (w.servers q2).connected = false)
    (hctx : (k q2).contexts ≠ .freed) :
    World.Kept { w with
      trace := World.releasing q2 .eCtx (w.servers q2).connection.eCtx ++
        (World.releasing q2 .dCtx (w.servers q2).connection.dCtx ++ w.trace) }
      (Function.update k q2 ⟨(k q2).key, (k q2).contexts.free⟩) := by
  have hheld := (h.holds q2).contexts
  cases hgrip : (k q2).contexts with
  | null =>
    rw [hgrip] at hheld
    obtain ⟨hE, hD, _⟩ := hheld
    have hsame : (⟨(k q2).key, Grip.null.free⟩ : Custody) = k q2 := by
      rw [show Grip.null.free = (k q2).contexts from hgrip.symm]
    rw [hE, hD, hsame, Function.update_eq_self]
    exact h
  | lost =>
    rw [hgrip] at hheld
    exact hheld.elim
  | freed => exact absurd hgrip hctx
  | live =>
    rw [hgrip] at hheld
    obtain ⟨e, d, current, hE, hD, hheldE, hheldD, _⟩ := hheld
    rw [hE, hD]
    let w₁ : World N :=
      { w with trace := .released q2 .eCtx e :: .released q2 .dCtx d :: w.trace }
    have hkey : w₁.held q2 .key = w.held q2 .key :=
      World.held_append (l := [.free (q2.val, .eCtx) e, .free (q2.val, .dCtx) d]) rfl
        (by simp [HandleOp.touches])
    have hfree : HandleOp.holding (q2.val, Cell.eCtx)
        (.free (q2.val, Cell.dCtx) d :: w.handleOps) = .live e current :=
      (if_neg (by simp)).trans hheldE
    have hfreed : w₁.held q2 .dCtx = .released := (if_neg (by simp)).trans (if_pos rfl)
    change w₁.Kept _
    refine h.change (l := [.free (q2.val, .eCtx) e, .free (q2.val, .dCtx) d]) rfl ?_
      ⟨⟨h.sound, current, hheldD⟩, current, hfree⟩ (Nat.le_refl _) (by simp) (fun _ _ ↦ rfl)
      ⟨?_, if_pos rfl, hfreed, fun htrue ↦ by cases hc.symm.trans htrue⟩
    · intro op hop slot hs
      rcases List.mem_cons.mp hop with rfl | hop
      · exact touches_free hs
      · rw [List.mem_singleton.mp hop]
        exact touches_free hs
    · rw [hkey]
      exact (h.holds q2).key

/-- `CloseConnection` frees what the pointers of a server point to. -/
theorem World.Kept.close (h : w.Kept k) (hkey : (k q2).key ≠ .freed)
    (hctx : (k q2).contexts ≠ .freed) (hrun : (closeConnection q2).run w = .ok () w') :
    w'.Kept (Function.update k q2 ((k q2).after .quit)) := by
  rw [closeConnection_run] at hrun
  let w₁ := w.updateServer q2 Q2Server.disconnect
  have hself : w₁.servers q2 = (w.servers q2).disconnect := w.updateServer_self q2 _
  have hdown : w₁.Kept k := h.down fun _ ↦ rfl
  have hfreed := hdown.freeKey hkey
  have hc : (w₁.servers q2).connected = false := by
    rw [hself]
    rfl
  have hboth := hfreed.freeContexts hc (by rw [Function.update_self]; exact hctx)
  rw [Function.update_self, Function.update_idem, hself] at hboth
  exact (hboth.log (e := .closed (w.servers q2).socket) rfl).rebuild hrun

/-- Contexts are created for a server that has none. -/
theorem World.Kept.grant (h : w.Kept k) (hctx : (k q2).contexts ≠ .live) :
    (w.granted q2).Kept (Function.update k q2 ⟨(k q2).key, .live⟩) := by
  obtain ⟨hnoE, hnoD⟩ := contextsHeld_notLive (h.holds q2).contexts hctx
  let l : List (HandleOp (Nat × Cell)) :=
    [.create (q2.val, .dCtx) (w.nextHandle + 1), .create (q2.val, .eCtx) w.nextHandle]
  have hkey : (w.granted q2).held q2 .key = w.held q2 .key :=
    World.held_append (l := l) rfl (by simp [l, HandleOp.touches])
  have hE : (w.granted q2).held q2 .eCtx = .live w.nextHandle true :=
    (if_neg (by simp)).trans (if_pos rfl)
  have hD : (w.granted q2).held q2 .dCtx = .live (w.nextHandle + 1) true := if_pos rfl
  have hsound : HandleOp.Sound (l ++ w.handleOps) := by
    refine ⟨⟨h.sound, hnoE, fun slot hmem ↦ ?_⟩, ?_, fun slot hmem ↦ ?_⟩
    · exact Nat.lt_irrefl _ (h.fresh slot _ hmem)
    · exact (congrArg Holding.isLive (if_neg (by simp))).trans hnoD
    · rcases List.mem_cons.mp hmem with he | hold
      · exact absurd (HandleOp.create.inj he).2 (Nat.succ_ne_self _)
      · have hlt := h.fresh slot _ hold
        omega
  refine h.change (l := l) rfl ?_ hsound (Nat.le_add_right _ 2) ?_ ?_ ⟨?_, ?_⟩
  · intro op hop slot hs
    have hne (cell : Cell) : ¬ (q2.val, cell) = slot := fun he ↦ hs (congrArg Prod.fst he).symm
    simp only [l, List.mem_cons, List.not_mem_nil, or_false] at hop
    rcases hop with rfl | rfl <;> simp [HandleOp.touches, hne]
  · intro slot n hmem
    change n < w.nextHandle + 2
    simp only [l, List.mem_cons, List.not_mem_nil, or_false, HandleOp.create.injEq] at hmem
    omega
  · intro s hs
    rw [World.granted_of_ne _ hs]
  · rw [hkey, World.granted_self]
    exact (h.holds q2).key
  · rw [World.granted_self]
    exact ⟨_, _, true, rfl, rfl, hE, hD, fun _ _ ↦ rfl⟩

private theorem kept_auth {cipher : List UInt8} (h : w.Kept k)
    (hc : (w.servers q2).connected = true)
    (hadmits : (k q2).Admits (.auth ((w.servers q2).accepts c cipher)))
    (hrun : (exec c q2 (.auth cipher)).run w = .ok () w') :
    w'.Kept
      (Function.update k q2 ((k q2).after (.auth ((w.servers q2).accepts c cipher)))) := by
  have htalk {w₁ : World N} {k : Fin N → Custody} (h : w₁.Kept k)
      (hrun : (acceptAuth c q2).run w₁ = .ok () w') : w'.Kept k :=
    h.moves (moves_acceptAuth c q2 (P := fun _ ↦ True) trivial) hrun
  obtain ⟨b, w₁, h₁, hrun⟩ := run_bind_ok hrun
  obtain ⟨hb, key, hkey, hw₁⟩ := checkAnswer_ok h₁
  rw [← hb] at hadmits ⊢
  have hgrip : (k q2).key = .live := by
    cases b with
    | true => exact hadmits.1
    | false => exact hadmits.1
  -- The key is one of the connection on which the answer comes.
  have hheld := (h.holds q2).key
  rw [hgrip] at hheld
  obtain ⟨key', current, hkey', hlive, hcurrent⟩ := hheld
  rw [hkey] at hkey'
  cases hkey'
  rw [hcurrent hc] at hlive
  have hused : (w.deciphered q2 key).Kept k := h.use hlive
  cases b with
  | true =>
    rw [if_pos rfl] at hw₁
    rw [hw₁] at hrun
    exact htalk (hused.grant hadmits.2) hrun
  | false =>
    rw [if_neg Bool.false_ne_true] at hw₁
    obtain ⟨_, w₂, hrefuse, hrun⟩ := run_bind_ok hrun
    obtain ⟨_, w₃, h₃, hrefuse⟩ := run_bind_ok hrefuse
    obtain ⟨_, w₄, h₄, hclose⟩ := run_bind_ok hrefuse
    rw [← hw₁] at hused
    have hwritten : w₃.Kept k := hused.moves (moves_onOut c q2 (P := fun _ ↦ True) trivial
      (lengthens_bind (lengthens_byte _) fun _ ↦
        lengthens_bind (lengthens_byte _) fun _ ↦ lengthens_byte_string _ _)) h₃
    have hsent : w₄.Kept k :=
      hwritten.moves (moves_sendBuffer c q2 (P := fun _ ↦ True) trivial) h₄
    exact htalk (hsent.close (by simp [hgrip]) hadmits.2 hclose) hrun

-- What a HELLO does to the public key of its server, newest first.
private def helloOps (env : HelloEnv) (hello : Hello) (q2 : Fin N) (n : Nat) :
    List (HandleOp (Nat × Cell)) :=
  (if env.answers hello.challenge then
      if hello.encrypted ≠ 0 then (env.keyFile.key.map fun _ ↦ .use (q2.val, .key) n).toList
      else []
    else (env.keyFile.key.map fun _ ↦ .free (q2.val, .key) n).toList) ++
  if env.keyFile.creates then [.create (q2.val, .key) n] else []

private theorem handleOps_replying (w : World N) (env : HelloEnv) (hello : Hello) (i : Nat)
    (q2 : Fin N) : (w.replying env hello i q2).handleOps =
      helloOps env hello q2 w.nextHandle ++
        .renew (fun slot ↦ slot.1 = q2) :: w.handleOps := by
  have hkey : ((w.servers q2).welcome env hello i (w.sockets i).fd w.nextHandle).publickey =
      env.keyFile.key.map (RsaKey.mk w.nextHandle) := rfl
  have hencrypted : ((w.servers q2).welcome env hello i (w.sockets i).fd
      w.nextHandle).connection.encrypted = decide (hello.encrypted ≠ 0) := rfl
  unfold World.handleOps
  rw [World.replying_trace, List.filterMap_append]
  congr 1
  unfold Q2Server.welcoming Q2Server.sharing KeyFile.creating World.releasing helloOps
  rw [hkey, hencrypted, List.filterMap_append]
  congr 1
  · cases env.keyFile.key <;> split_ifs <;> simp_all [Event.handleOp]
  · split_ifs <;> rfl

private theorem mem_helloOps {env : HelloEnv} {hello : Hello} {n : Nat}
    {op : HandleOp (Nat × Cell)} (hop : op ∈ helloOps env hello q2 n) :
    op = .use (q2.val, .key) n ∨ op = .free (q2.val, .key) n ∨
      (op = .create (q2.val, .key) n ∧ env.keyFile.creates = true) := by
  rcases List.mem_append.mp hop with hop | hop
  · split at hop
    · split at hop
      · obtain ⟨_, _, rfl⟩ := Option.map_eq_some_iff.mp (Option.mem_toList.mp hop)
        exact .inl rfl
      · cases hop
    · obtain ⟨_, _, rfl⟩ := Option.map_eq_some_iff.mp (Option.mem_toList.mp hop)
      exact .inr (.inl rfl)
  · split at hop
    · next hcreates => exact .inr (.inr ⟨List.mem_singleton.mp hop, hcreates⟩)
    · cases hop

private theorem touches_helloOps {env : HelloEnv} {hello : Hello} {n : Nat} {slot : Nat × Cell}
    (hslot : (q2.val, .key) ≠ slot) :
    ∀ op ∈ helloOps env hello q2 n, op.touches slot = false := by
  intro op hop
  rcases mem_helloOps hop with rfl | rfl | ⟨rfl, _⟩
  · rfl
  · simp [HandleOp.touches, hslot]
  · simp [HandleOp.touches, hslot]

private theorem key_helloOps {env : HelloEnv} (hello : Hello) (h : w.Kept k)
    (hfile : env.keyFile ≠ .missing)
    (hadmits : env.keyFile.creates = true → (k q2).key ≠ .live ∧ (k q2).key ≠ .lost)
    {r : Q2Server} (hr : r.publickey = env.keyFile.key.map (RsaKey.mk w.nextHandle))
    (encrypted : Bool) :
    let ops := helloOps env hello q2 w.nextHandle ++
      .renew (fun slot ↦ slot.1 = q2) :: w.handleOps
    HandleOp.Sound ops ∧ KeyHeld r (HandleOp.holding (q2.val, .key) ops)
      ((k q2).after (.hello env.keyFile encrypted (env.answers hello.challenge))).key := by
  have hheld := (h.holds q2).key
  let aged : List (HandleOp (Nat × Cell)) := .renew (fun slot ↦ slot.1 = q2) :: w.handleOps
  have haged : HandleOp.holding (q2.val, .key) aged = (w.held q2 .key).age :=
    if_pos (decide_eq_true rfl)
  -- A new object is created for the pointer.
  have hcreate (hcreates : env.keyFile.creates = true) :
      HandleOp.Sound (.create (q2.val, .key) w.nextHandle :: aged) := by
    refine ⟨h.sound, ?_, fun slot hmem ↦ ?_⟩
    · rw [haged, Holding.isLive_age]
      exact keyHeld_notLive hheld (hadmits hcreates).1 (hadmits hcreates).2
    · exact Nat.lt_irrefl _ (h.fresh slot _ (List.mem_of_ne_of_mem (by simp) hmem))
  have hlive : HandleOp.holding (q2.val, .key) (.create (q2.val, .key) w.nextHandle :: aged) =
      .live w.nextHandle true := if_pos rfl
  cases hf : env.keyFile with
  | missing => exact absurd hf hfile
  | noMemory =>
    rw [hf] at hr
    have hops : helloOps env hello q2 w.nextHandle = [] := by
      simp [helloOps, hf, KeyFile.key, KeyFile.creates]
    rw [hops]
    refine ⟨h.sound, ?_⟩
    dsimp only [Custody.after]
    split
    · exact hr
    · next hno =>
      refine ⟨hr, ?_⟩
      rw [List.nil_append, haged, Holding.isLive_age]
      exact keyHeld_notLive hheld (fun he ↦ hno (.inl he)) fun he ↦ hno (.inr he)
  | unreadable =>
    rw [hf] at hr
    have hops : helloOps env hello q2 w.nextHandle = [.create (q2.val, .key) w.nextHandle] := by
      simp [helloOps, hf, KeyFile.key, KeyFile.creates]
    rw [hops]
    exact ⟨hcreate (by rw [hf]; rfl), hr⟩
  | holds key =>
    rw [hf] at hr
    have hcreated := hcreate (by rw [hf]; rfl)
    cases ha : env.answers hello.challenge with
    | true =>
      by_cases he : hello.encrypted = 0
      · have hops : helloOps env hello q2 w.nextHandle =
            [.create (q2.val, .key) w.nextHandle] := by
          simp [helloOps, hf, ha, he, KeyFile.creates]
        rw [hops]
        exact ⟨hcreated, _, true, hr, hlive, fun _ ↦ rfl⟩
      · have hops : helloOps env hello q2 w.nextHandle =
            [.use (q2.val, .key) w.nextHandle, .create (q2.val, .key) w.nextHandle] := by
          simp [helloOps, hf, ha, he, KeyFile.key, KeyFile.creates]
        rw [hops]
        exact ⟨⟨hcreated, hlive⟩, _, true, hr, hlive, fun _ ↦ rfl⟩
    | false =>
      have hops : helloOps env hello q2 w.nextHandle =
          [.free (q2.val, .key) w.nextHandle, .create (q2.val, .key) w.nextHandle] := by
        simp [helloOps, hf, ha, KeyFile.key, KeyFile.creates]
      rw [hops]
      exact ⟨⟨hcreated, true, hlive⟩, if_pos rfl⟩

private theorem kept_replying {env : HelloEnv} {hello : Hello} {i : Nat} (h : w.Kept k)
    (hfile : env.keyFile ≠ .missing)
    (hadmits : (k q2).Admits
      (.hello env.keyFile (hello.encrypted ≠ 0) (env.answers hello.challenge))) :
    (w.replying env hello i q2).Kept (Function.update k q2 ((k q2).after
      (.hello env.keyFile (hello.encrypted ≠ 0) (env.answers hello.challenge)))) := by
  have hops := handleOps_replying w env hello i q2
  have hself := w.replying_self env hello i q2
  -- The record but for its public key, its challenge and its session key.
  obtain ⟨hpublic, hE, hD, hencrypted, htrusted⟩ :
      ((w.replying env hello i q2).servers q2).publickey =
          env.keyFile.key.map (RsaKey.mk w.nextHandle) ∧
        ((w.replying env hello i q2).servers q2).connection.eCtx =
          (w.servers q2).connection.eCtx ∧
        ((w.replying env hello i q2).servers q2).connection.dCtx =
          (w.servers q2).connection.dCtx ∧
        ((w.replying env hello i q2).servers q2).connection.encrypted =
          decide (hello.encrypted ≠ 0) ∧
        ((w.replying env hello i q2).servers q2).trusted = (w.servers q2).trusted := by
    rw [hself]
    dsimp only
    split <;> exact ⟨rfl, rfl, rfl, rfl, rfl⟩
  obtain ⟨hsound, hkey⟩ :=
    key_helloOps hello h hfile hadmits.1 hpublic (hello.encrypted ≠ 0)
  have hcontexts (cell : Cell) (hcell : .key ≠ cell) :
      (w.replying env hello i q2).held q2 cell = (w.held q2 cell).age := by
    unfold World.held
    rw [hops, HandleOp.holding_append (touches_helloOps (by simp [hcell]))]
    exact if_pos (decide_eq_true rfl)
  refine h.change (l := helloOps env hello q2 w.nextHandle ++ [.renew fun slot ↦ slot.1 = q2])
    ?_ ?_ ?_ ?_ ?_ ?_ ⟨?_, ?_⟩
  · rw [hops, List.append_assoc]
    rfl
  · intro op hop slot hs
    rcases List.mem_append.mp hop with hop | hop
    · exact touches_helloOps (fun he ↦ hs (congrArg Prod.fst he).symm) op hop
    · rw [List.mem_singleton.mp hop]
      exact decide_eq_false hs
  · rw [List.append_assoc]
    exact hsound
  · rw [World.replying_nextHandle]
    split <;> omega
  · intro slot n hmem
    rcases List.mem_append.mp hmem with hmem | hmem
    · rcases mem_helloOps hmem with he | he | ⟨he, hcreates⟩
      · cases he
      · cases he
      · rw [World.replying_nextHandle, if_pos hcreates, (HandleOp.create.inj he).2]
        exact Nat.lt_succ_self _
    · cases List.mem_singleton.mp hmem
  · intro s hs
    rw [World.replying_of_ne _ _ _ _ hs]
  · unfold World.held
    rw [hops]
    exact hkey
  · rw [hcontexts .eCtx Cell.noConfusion, hcontexts .dCtx Cell.noConfusion,
      Custody.after_hello_contexts]
    refine contextsHeld_age (h.holds q2).contexts hE hD htrusted fun hnull ↦ ?_
    rw [hencrypted]
    exact Bool.eq_false_iff.mpr fun he ↦ hnull (hadmits.2 he)

/-- A HELLO that can be taken. -/
theorem World.Kept.register {env : HelloEnv} {hello : Hello} {i : Nat} {found : Option (Fin N)}
    (h : w.Kept k) (hkey : w.serverOfKey hello.key = some q2)
    (hadmits : (k q2).Admits
      (.hello env.keyFile (hello.encrypted ≠ 0) (env.answers hello.challenge)))
    (hrun : (registerHello c env i hello).run w = .ok found w') :
    w'.Kept (Function.update k q2 ((k q2).after
      (.hello env.keyFile (hello.encrypted ≠ 0) (env.answers hello.challenge)))) := by
  obtain ⟨hfile, _, plain, rfl, _⟩ := registerHello_ok hkey hrun
  refine (kept_replying h hfile hadmits).posted ?_ plain _
  rw [World.replying_self]
  dsimp only
  split <;> rfl

/-- A command that can be taken. A key that is behind its pointer belongs to the connection. -/
theorem World.Kept.exec {cmd : Command} (h : w.Kept k)
    (hlink : (w.servers q2).connected = true ∨ (k q2).key ≠ .live)
    (hadmits : ∀ r ∈ cmd.request c (w.servers q2), (k q2).Admits r)
    (hrun : (Q2Admin.exec c q2 cmd).run w = .ok () w') :
    let g := (cmd.request c (w.servers q2)).elim (k q2) (k q2).after
    w'.Kept (Function.update k q2 g) ∧ ((w'.servers q2).connected = true ∨ g.key ≠ .live) := by
  have hfreed (g : Grip) : g.free ≠ .live := by cases g <;> simp [Grip.free]
  have hquiet (hnone : cmd.request c (w.servers q2) = none) (hsession : cmd.isSession = false) :
      let g := (cmd.request c (w.servers q2)).elim (k q2) (k q2).after
      w'.Kept (Function.update k q2 g) ∧
        ((w'.servers q2).connected = true ∨ g.key ≠ .live) := by
    have hop : cmd.sessionOp c (w.servers q2) = none := by
      cases cmd with
      | auth | quit => cases hnone
      | _ => rfl
    have hmoves : Moves (Change c q2 (fun _ ↦ True) False) (Q2Admin.exec c q2 cmd) :=
      moves_exec c q2 trivial (fun _ _ ↦ trivial) fun hs ↦ by
        rw [hsession] at hs
        cases hs
    rw [hnone]
    dsimp only [Option.elim_none]
    rw [Function.update_eq_self, connected_of_core ((keeps_core_exec c q2 hop).ok hrun)]
    exact ⟨h.moves hmoves hrun, hlink⟩
  cases cmd with
  | auth cipher =>
    have hr := hadmits _ rfl
    have hgrip : (k q2).key = .live := by
      cases ha : (w.servers q2).accepts c cipher with
      | true =>
        rw [ha] at hr
        exact hr.1
      | false =>
        rw [ha] at hr
        exact hr.1
    have hc : (w.servers q2).connected = true := hlink.resolve_right (fun hno ↦ hno hgrip)
    refine ⟨kept_auth h hc hr hrun, ?_⟩
    have hcore := core_exec hrun
    dsimp only [Command.request, Option.elim_some]
    cases ha : (w.servers q2).accepts c cipher with
    | true =>
      left
      have hgrant : w'.core = w.core.grant q2 := by
        rw [hcore]
        simp [Command.sessionOp, ha, Core.apply]
      have hrecord : w'.core.records q2 = { w.core.records q2 with trusted := true } := by
        rw [hgrant, Core.grant, Core.log_records, Core.updateRecord_self]
      exact (congrArg Record.connected hrecord).trans hc
    | false => exact .inr (hfreed _)
  | quit =>
    have hr := hadmits _ rfl
    exact ⟨h.close hr.1 hr.2 hrun, .inr (hfreed _)⟩
  | _ => exact hquiet rfl rfl

/-- Commands that can be taken one after the other. -/
theorem World.Kept.execAll {s : Q2Server} {cmds : List Command} (h : w.Kept k)
    (hlink : (w.servers q2).connected = true ∨ (k q2).key ≠ .live)
    (hs : (w.servers q2).credentials = s.credentials)
    (hadmits : (k q2).AdmitsAll (cmds.filterMap (Command.request c s)))
    (hrun : (forM cmds (Q2Admin.exec c q2)).run w = .ok () w') :
    w'.Kept (Function.update k q2
      ((cmds.filterMap (Command.request c s)).foldl Custody.after (k q2))) := by
  induction cmds generalizing w k with
  | nil =>
    cases hrun
    rw [List.filterMap_nil, List.foldl_nil, Function.update_eq_self]
    exact h
  | cons cmd cmds ih =>
    rw [List.forM_cons] at hrun
    obtain ⟨_, w₁, h₁, hrun⟩ := run_bind_ok hrun
    have hs₁ : (w₁.servers q2).credentials = s.credentials :=
      ((keeps_credentials_exec c q2 q2 cmd).ok h₁).trans hs
    have hrequest : cmd.request c (w.servers q2) = cmd.request c s := request_congr c hs cmd
    rw [List.filterMap_cons] at hadmits ⊢
    have hstep := h.exec hlink (fun r hr ↦ ?_) h₁
    · cases hr : cmd.request c s with
      | none =>
        rw [hrequest, hr] at hstep
        rw [hr] at hadmits
        have hrest := ih hstep.1 (by rw [Function.update_self]; exact hstep.2) hs₁
          (by rw [Function.update_self]; exact hadmits) hrun
        rwa [Function.update_idem, Function.update_self] at hrest
      | some r =>
        rw [hrequest, hr] at hstep
        rw [hr] at hadmits
        have hrest := ih hstep.1 (by rw [Function.update_self]; exact hstep.2) hs₁
          (by rw [Function.update_self]; exact hadmits.2) hrun
        rwa [Function.update_idem, Function.update_self] at hrest
    · rw [hrequest] at hr
      rw [Option.mem_def.mp hr] at hadmits
      exact hadmits.1

end Frames

end Q2Admin
