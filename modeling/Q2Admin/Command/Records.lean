import Q2Admin.Command.Command

/-!
# What commands leave alone in the records

Library `Q2Admin.Command`. Frames for functions of a server record. Talking, closing and
the check of an AUTH keep the content of every record; only five commands write the
player table, and no command touches what a client has to prove itself with.
-/

namespace Q2Admin

open Exec

variable {N : Nat} {α ν : Type}

/-- Talking keeps what a record holds besides its buffer and its count of pings. -/
theorem Talks.keeps_server {x : M N α} (h : Talks x) {v : Q2Server → ν}
    (hv : ∀ s, v s.stable = v s) (s : Fin N) : Keeps (fun w ↦ v (w.servers s)) x := fun w ↦ by
  have hs := congrFun (congrArg World.servers (h.keeps w)) s
  change ((final x w).servers s).stable = (w.servers s).stable at hs
  change v ((final x w).servers s) = v (w.servers s)
  rw [← hv, hs, hv]

/-- Assignments keep what they do not assign, in all records. -/
theorem keeps_modifyServer (q2 s : Fin N) {v : Q2Server → ν} {f : Q2Server → Q2Server}
    (hf : ∀ s, v (f s) = v s) :
    Keeps (fun w ↦ v (w.servers s)) (modifyServer q2 f) := by
  apply keeps_modify
  intro w
  by_cases hs : s = q2
  · rw [hs, World.updateServer_self, hf]
  · rw [World.updateServer_of_ne _ _ hs]

/-- Reading a part of the state. -/
theorem look_ok {v : World N → α} {w w' : World N} {a : α} (h : (look v).run w = .ok a w') :
    a = v w ∧ w = w' := by
  cases h
  exact ⟨rfl, rfl⟩

/-- What an assignment returns. -/
theorem modifyServer_ok {q2 : Fin N} {f : Q2Server → Q2Server} {w w' : World N} {u : Unit}
    (h : (modifyServer q2 f).run w = .ok u w') : w' = w.updateServer q2 f := by
  cases h
  rfl

/-- Noting an event leaves every record. -/
theorem keeps_server_logEvent {v : Q2Server → ν} (e : Event) (s : Fin N) :
    Keeps (fun w ↦ v (w.servers s)) (logEvent e) := keeps_modify fun _ ↦ rfl

/-- Creating a handle leaves every record. -/
theorem keeps_server_createHandle {v : Q2Server → ν} (q2 : Fin N) (cell : Cell) (s : Fin N) :
    Keeps (fun w ↦ v (w.servers s)) (createHandle q2 cell) := fun _ ↦ rfl

/-- A record apart from its buffer, its count of pings, its place in the poll table and what
a granted trust sets. -/
def Q2Server.content (s : Q2Server) : Q2Server :=
  { s with
    msg := .zero
    connection := { s.connection with pingCount := 0, eCtx := none, dCtx := none }
    index := 0
    connected := false
    trusted := false }

/-- A rebuild of the poll table keeps what shows neither descriptors nor places in it. -/
theorem keeps_rebuild {v : World N → ν}
    (hindex : ∀ (w : World N) (q2 : Fin N) (i : Nat),
      v (w.updateServer q2 fun s ↦ { s with index := i }) = v w)
    (hslot : ∀ (w : World N) (i fd : Nat),
      v { w with
        sockets := Function.update w.sockets i
          { w.sockets i with fd := fd, events := true } } = v w)
    (hcount : ∀ (w : World N) (n : Nat), v { w with socketCount := n } = v w) :
    Keeps v (removeServerSocket : M N Unit) := by
  refine keeps_bind (keeps_foldlM (fun i q2 _ ↦ ?_) 1) fun i ↦ keeps_modify fun w ↦ hcount w i
  refine keeps_bind (fun _ ↦ rfl) fun r ↦ keeps_ite (keeps_pure _) ?_
  refine keeps_bind (keeps_modify fun w ↦ hslot w i r.socket) fun _ ↦ ?_
  exact keeps_bind (keeps_modify fun w ↦ hindex w q2 i) fun _ ↦ keeps_pure _

/-- A rebuild of the poll table touches no record but in its index. -/
theorem keeps_removeServerSocket {v : Q2Server → ν} (hv : ∀ r i, v { r with index := i } = v r)
    (s : Fin N) : Keeps (fun w ↦ v (w.servers s)) (removeServerSocket : M N Unit) := by
  refine keeps_rebuild (fun w q2 i ↦ ?_) (fun _ _ _ ↦ rfl) fun _ _ ↦ rfl
  exact keeps_modifyServer q2 s (fun r ↦ hv r i) w

/-- Closing a connection preserves what its events, the assignment and the rebuild do. -/
theorem preserves_closeConnection {I : World N → Prop} {q2 : Fin N}
    (hreleased : ∀ cell h, Preserves I (logEvent (.released q2 cell h)))
    (hclosed : ∀ fd, Preserves I (logEvent (.closed fd)))
    (hassign : Preserves I (modifyServer q2 fun s ↦ { s with connected := false, index := 0 }))
    (hrebuild : Preserves I removeServerSocket) : Preserves I (closeConnection q2) := by
  have hrelease (cell : Cell) (h : Option Nat) : Preserves I (release q2 cell h) := by
    cases h with
    | none => exact preserves_pure _
    | some h => exact hreleased cell h
  refine preserves_bind (fun _ hw ↦ hw) fun s ↦ preserves_bind (hrelease _ _) fun _ ↦ ?_
  refine preserves_bind (hrelease _ _) fun _ ↦ preserves_bind (hrelease _ _) fun _ ↦ ?_
  exact preserves_bind (hclosed _) fun _ ↦ preserves_bind hassign fun _ ↦ hrebuild

/-- Closing a connection keeps what its events, the assignment and the rebuild keep. -/
theorem keeps_close {v : World N → ν} {q2 : Fin N}
    (hreleased : ∀ cell h, Keeps v (logEvent (.released q2 cell h)))
    (hclosed : ∀ fd, Keeps v (logEvent (.closed fd)))
    (hassign : Keeps v (modifyServer q2 fun s ↦ { s with connected := false, index := 0 }))
    (hrebuild : Keeps v removeServerSocket) : Keeps v (closeConnection q2) :=
  keeps_iff.mpr fun a ↦ preserves_closeConnection (fun cell h ↦ keeps_iff.mp (hreleased cell h) a)
    (fun fd ↦ keeps_iff.mp (hclosed fd) a) (keeps_iff.mp hassign a) (keeps_iff.mp hrebuild a)

/-- Closing a connection keeps all records apart from places in the table. -/
theorem keeps_closeConnection {v : Q2Server → ν} (hv : ∀ s, v s.content = v s)
    (q2 s : Fin N) : Keeps (fun w ↦ v (w.servers s)) (closeConnection q2) := by
  have hplace {f : Q2Server → Q2Server} (hf : ∀ r, (f r).content = r.content) (r : Q2Server) :
      v (f r) = v r := by
    rw [← hv, hf, hv]
  refine keeps_close (fun _ _ ↦ keeps_server_logEvent _ s) (fun _ ↦ keeps_server_logEvent _ s)
    (keeps_modifyServer q2 s (hplace fun _ ↦ rfl)) (keeps_removeServerSocket (fun r i ↦ ?_) s)
  exact hplace (f := fun r ↦ { r with index := i }) (fun _ ↦ rfl) r

/-- Enciphering a message keeps what does not show the use of a context. -/
theorem keeps_wireForm {v : World N → ν} (c : Crypto) (q2 : Fin N) (plain : List UInt8)
    (hused : ∀ cell h, Keeps v (logEvent (.used q2 cell h))) : Keeps v (wireForm c q2 plain) := by
  apply keeps_bind fun _ ↦ rfl
  intro r
  apply keeps_ite _ (keeps_pure _)
  apply keeps_bind fun _ ↦ rfl
  intro r
  cases r.connection.eCtx with
  | none => exact keeps_throw _
  | some h =>
    apply keeps_bind (hused _ h)
    intro _
    exact keeps_ite (keeps_throw _) (keeps_pure _)

/-- `SendBuffer` keeps what its events and the clearing of the buffer keep. -/
theorem keeps_send {v : World N → ν} (c : Crypto) {q2 : Fin N}
    (hused : ∀ cell h, Keeps v (logEvent (.used q2 cell h)))
    (hsent : ∀ fd plain wire, Keeps v (logEvent (.sent fd plain wire)))
    (hassign : Keeps v (modifyServer q2 fun s ↦ { s with msg := .zero })) :
    Keeps v (sendBuffer c q2) := by
  apply keeps_bind fun _ ↦ rfl
  intro r
  apply keeps_ite (keeps_pure _)
  apply keeps_ite (keeps_pure _)
  apply keeps_bind (keeps_wireForm c q2 _ hused)
  intro wire
  apply keeps_bind fun _ ↦ rfl
  intro p
  exact keeps_bind (hsent _ _ _) fun _ ↦ hassign

/-- A record apart from what a granted trust sets. -/
def Q2Server.ungranted (s : Q2Server) : Q2Server :=
  { s with connection := { s.connection with eCtx := none, dCtx := none }, trusted := false }

/-- The check of an AUTH keeps what shows neither its events nor what a granted trust sets. -/
theorem keeps_check {v : World N → ν} (c : Crypto) {q2 : Fin N} (cipher : List UInt8)
    (hused : ∀ cell h, Keeps v (logEvent (.used q2 cell h)))
    (hverified : ∀ fd, Keeps v (logEvent (.verified q2 fd)))
    (hcreate : ∀ cell, Keeps v (createHandle q2 cell))
    (hassign : ∀ f : Q2Server → Q2Server, (∀ s, (f s).ungranted = s.ungranted) →
      Keeps v (modifyServer q2 f)) : Keeps v (checkAnswer c q2 cipher) := by
  have hgrant : Keeps v (grantTrust q2) := by
    apply keeps_bind (hcreate _)
    intro e
    refine keeps_bind (hassign _ fun _ ↦ rfl) fun _ ↦ keeps_bind (hcreate _) fun d ↦ ?_
    refine keeps_bind (hassign _ fun _ ↦ rfl) fun _ ↦ ?_
    refine keeps_bind (hassign _ fun _ ↦ rfl) fun _ ↦ ?_
    exact keeps_bind (fun _ ↦ rfl) fun _ ↦ hverified _
  apply keeps_ite (keeps_throw _)
  apply keeps_bind fun _ ↦ rfl
  intro s
  cases s.publickey with
  | none => exact keeps_throw _
  | some k =>
    apply keeps_bind (hused _ _)
    intro _
    cases c.rsaPublicDecrypt k.key cipher with
    | none => exact keeps_pure _
    | some plaintext =>
      apply keeps_ite (keeps_throw _)
      apply keeps_ite (keeps_pure _)
      exact keeps_ite (keeps_bind hgrant fun _ ↦ keeps_pure _) (keeps_pure _)

section Content

variable {v : Q2Server → ν} (hv : ∀ s, v s.content = v s)
include hv

private theorem stable_of_content (s : Q2Server) : v s.stable = v s := by
  rw [← hv, ← hv s]
  rfl

/-- The check of an AUTH keeps the content of all records. -/
theorem keeps_checkAnswer (c : Crypto) (q2 s : Fin N) (cipher : List UInt8) :
    Keeps (fun w ↦ v (w.servers s)) (checkAnswer c q2 cipher) := by
  refine keeps_check c cipher (fun _ _ ↦ keeps_server_logEvent _ s)
    (fun _ ↦ keeps_server_logEvent _ s) (fun _ ↦ keeps_server_createHandle q2 _ s)
    fun f hf ↦ keeps_modifyServer q2 s fun r ↦ ?_
  have hcontent : (f r).content = r.content := (congrArg Q2Server.content (hf r) :)
  rw [← hv, hcontent, hv]

/-- The answer to an AUTH keeps the content of all records. -/
theorem keeps_concludeAuth (c : Crypto) (q2 s : Fin N) (verified : Bool) :
    Keeps (fun w ↦ v (w.servers s)) (concludeAuth c q2 verified) := by
  have haccept := (talks_acceptAuth c q2).keeps_server (stable_of_content hv) s
  refine keeps_ite haccept (keeps_bind ?_ fun _ ↦ haccept)
  apply keeps_bind ((talks_onOut q2 _).keeps_server (stable_of_content hv) s)
  intro _
  exact keeps_bind ((talks_sendBuffer c q2).keeps_server (stable_of_content hv) s) fun _ ↦
    keeps_closeConnection hv q2 s

end Content

/-- The commands that write the player table or the map. -/
def Command.writes : Command → Bool
  | .connect _ _ | .playerUpdate _ _ | .disconnect _ | .playerList _ _ | .map _ => true
  | _ => false

/-- All other commands keep the content of all records. -/
theorem keeps_exec {v : Q2Server → ν} (hv : ∀ s, v s.content = v s) (c : Crypto) (q2 s : Fin N)
    {cmd : Command} (h : cmd.writes = false) :
    Keeps (fun w ↦ v (w.servers s)) (exec c q2 cmd) := by
  have htalks {x : M N Unit} (hx : Talks x) : Keeps (fun w ↦ v (w.servers s)) x :=
    hx.keeps_server (stable_of_content hv) s
  cases cmd with
  | auth cipher =>
    exact keeps_bind (keeps_checkAnswer hv c q2 s cipher) fun b ↦ keeps_concludeAuth hv c q2 s b
  | quit => exact keeps_closeConnection hv q2 s
  | ping => exact htalks (talks_pong c q2)
  | print level text => exact keeps_pure _
  | teleport clientId location => exact htalks (talks_teleport c q2 clientId location)
  | invite clientId text => exact htalks (talks_invite c q2 clientId text)
  | command kind => exact keeps_pure _
  | other cmd => exact keeps_pure _
  | _ => cases h

/-- What a client has to prove itself with: the key that is known of it, and the challenge. -/
def Q2Server.credentials (s : Q2Server) : Option (List UInt8) × Field 16 :=
  (s.publickey.map RsaKey.key, s.connection.clChallenge)

/-- Whether an answer is accepted depends on the credentials only. -/
theorem accepts_congr (c : Crypto) {s s' : Q2Server} (h : s.credentials = s'.credentials)
    (cipher : List UInt8) : s.accepts c cipher = s'.accepts c cipher := by
  have hkey : s.publickey.map RsaKey.key = s'.publickey.map RsaKey.key := congrArg Prod.fst h
  have hchallenge : s.connection.clChallenge = s'.connection.clChallenge := congrArg Prod.snd h
  unfold Q2Server.accepts
  cases hs : s.publickey with
  | none =>
    cases hs' : s'.publickey with
    | none => rfl
    | some k' =>
      rw [hs, hs'] at hkey
      cases hkey
  | some k =>
    cases hs' : s'.publickey with
    | none =>
      rw [hs, hs'] at hkey
      cases hkey
    | some k' =>
      rw [hs, hs'] at hkey
      dsimp only
      rw [hchallenge, show k.key = k'.key from Option.some.inj hkey]

/-- A record apart from what commands write. -/
def Q2Server.lasting (s : Q2Server) : Q2Server :=
  { s.content with players := fun _ ↦ Player.zero, playercount := 0, map := .zero 20 }

section Lasting

variable {v : Q2Server → ν} (hv : ∀ s, v s.lasting = v s)
include hv

private theorem keeps_lasting_modifyServer (q2 s : Fin N) {f : Q2Server → Q2Server}
    (hf : ∀ s, (f s).lasting = s.lasting) :
    Keeps (fun w ↦ v (w.servers s)) (modifyServer q2 f) :=
  keeps_modifyServer q2 s fun s ↦ by rw [← hv, hf, hv]

private theorem keeps_lasting_liftFault (s : Fin N) (x : Except Fault α) :
    Keeps (fun w ↦ v (w.servers s)) (liftFault x : M N α) :=
  (talks_liftFault x).keeps_server (fun s ↦ by rw [← hv, ← hv s]; rfl) s

private theorem keeps_lasting_enterPlayer (q2 s : Fin N) (clientId : UInt8)
    (userinfo : List UInt8) :
    Keeps (fun w ↦ v (w.servers s)) (enterPlayer q2 clientId userinfo) :=
  keeps_bind (keeps_lasting_liftFault hv s _) fun _ ↦
    keeps_lasting_modifyServer hv q2 s fun _ ↦ rfl

private theorem keeps_lasting_execEntries (q2 s : Fin N) (i : UInt8)
    (entries : List (UInt8 × List UInt8)) :
    Keeps (fun w ↦ v (w.servers s)) (execEntries q2 i entries) := by
  induction entries generalizing i with
  | nil => exact keeps_pure _
  | cons e entries ih =>
    refine keeps_bind ?_ fun _ ↦ ih (e.1 + 1)
    exact keeps_bind (keeps_lasting_modifyServer hv q2 s (fun _ ↦ rfl)) fun _ ↦
      keeps_bind (keeps_lasting_liftFault hv s _) fun _ ↦
        keeps_lasting_modifyServer hv q2 s fun _ ↦ rfl

/-- Commands keep what is lasting in all records. -/
theorem keeps_lasting_exec (c : Crypto) (q2 s : Fin N) (cmd : Command) :
    Keeps (fun w ↦ v (w.servers s)) (exec c q2 cmd) := by
  have hcontent (s : Q2Server) : v s.content = v s := by
    rw [← hv, ← hv s]
    rfl
  cases cmd with
  | connect clientId userinfo =>
    exact keeps_bind (keeps_lasting_enterPlayer hv q2 s clientId userinfo) fun _ ↦
      keeps_lasting_modifyServer hv q2 s fun _ ↦ rfl
  | playerUpdate clientId userinfo => exact keeps_lasting_enterPlayer hv q2 s clientId userinfo
  | disconnect clientId => exact keeps_lasting_modifyServer hv q2 s fun _ ↦ rfl
  | playerList count entries =>
    exact keeps_bind (keeps_lasting_modifyServer hv q2 s (fun _ ↦ rfl)) fun _ ↦
      keeps_lasting_execEntries hv q2 s 0 entries
  | map name => exact keeps_lasting_modifyServer hv q2 s fun _ ↦ rfl
  | _ => exact keeps_exec hcontent c q2 s rfl

end Lasting

/-- No command changes what a client has to prove itself with. -/
theorem keeps_credentials_exec (c : Crypto) (q2 s : Fin N) (cmd : Command) :
    Keeps (fun w ↦ (w.servers s).credentials) (exec c q2 cmd) :=
  keeps_lasting_exec (fun _ ↦ rfl) c q2 s cmd

end Q2Admin
