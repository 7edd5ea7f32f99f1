import Q2Admin.Command.Records

/-!
# What the handlers of a session leave

Library `Q2Admin.Command`. Exact results of the check of an AUTH and of `CloseConnection`: the
events, the handles and the records. The frames say what these functions leave alone, and here
is what they do.
-/

namespace Q2Admin

open Exec

variable {N : Nat}

namespace World

/-- Assignments to one record are one assignment. -/
theorem updateServer_updateServer (w : World N) (q2 : Fin N) (f g : Q2Server → Q2Server) :
    (w.updateServer q2 f).updateServer q2 g = w.updateServer q2 fun s ↦ g (f s) := by
  unfold updateServer
  simp only [Function.update_self, Function.update_idem]

/-- An assignment that changes nothing. -/
theorem updateServer_eq_self (w : World N) {q2 : Fin N} {f : Q2Server → Q2Server}
    (h : f (w.servers q2) = w.servers q2) : w.updateServer q2 f = w := by
  unfold updateServer
  rw [h, Function.update_eq_self]

end World

/-- A record that has been granted trust, with the allocations from `n` on for the contexts. -/
def Q2Server.grant (n : Nat) (s : Q2Server) : Q2Server :=
  { s with
    connection := { s.connection with eCtx := some n, dCtx := some (n + 1) }
    trusted := true }

namespace World

/-- The state after the challenge has been found to be right. -/
def granted (w : World N) (q2 : Fin N) : World N :=
  { w.updateServer q2 (Q2Server.grant w.nextHandle) with
    nextHandle := w.nextHandle + 2
    trace := .verified q2 (w.servers q2).socket :: .created q2 .dCtx (w.nextHandle + 1) ::
      .created q2 .eCtx w.nextHandle :: w.trace }

/-- The server that is verified gets its contexts, and is trusted. -/
@[simp] theorem granted_self (w : World N) (q2 : Fin N) :
    (w.granted q2).servers q2 = (w.servers q2).grant w.nextHandle := w.updateServer_self q2 _

/-- Another server gets nothing. -/
@[simp] theorem granted_of_ne (w : World N) {q2 s : Fin N} (hs : s ≠ q2) :
    (w.granted q2).servers s = w.servers s := w.updateServer_of_ne _ hs

/-- The state after a block has been taken to the public key of a server. -/
def deciphered (w : World N) (q2 : Fin N) (k : RsaKey) : World N :=
  { w with trace := .used q2 .key k.handle :: w.trace }

end World

/-- Creating a handle takes the next number. -/
theorem createHandle_run (q2 : Fin N) (cell : Cell) (w : World N) :
    (createHandle q2 cell).run w = .ok w.nextHandle { w with
      nextHandle := w.nextHandle + 1, trace := .created q2 cell w.nextHandle :: w.trace } := rfl

/-- A successful verification never faults. -/
theorem grantTrust_run (q2 : Fin N) (w : World N) :
    (grantTrust q2).run w = .ok () (w.granted q2) := by
  have hassign (f : Q2Server → Q2Server) (v : World N) :
      (modifyServer q2 f).run v = .ok () (v.updateServer q2 f) := rfl
  have hserver (v : World N) : (server q2).run v = .ok (v.servers q2) v := rfl
  unfold grantTrust
  rw [run_bind_of_ok (createHandle_run _ _ _), run_bind_of_ok (hassign _ _),
    run_bind_of_ok (createHandle_run _ _ _), run_bind_of_ok (hassign _ _),
    run_bind_of_ok (hassign _ _), run_bind_of_ok (hserver _)]
  change EStateM.Result.ok () _ = EStateM.Result.ok () _
  simp only [World.granted, World.updateServer, Function.update_self, Function.update_idem]
  rfl

/-- A check that returns has gone to the public key of the server, and it grants trust exactly
to the answer that the record accepts. -/
theorem checkAnswer_ok {c : Crypto} {q2 : Fin N} {cipher : List UInt8} {w w' : World N}
    {b : Bool} (h : (checkAnswer c q2 cipher).run w = .ok b w') :
    b = (w.servers q2).accepts c cipher ∧ ∃ k, (w.servers q2).publickey = some k ∧
      w' = if b then (w.deciphered q2 k).granted q2 else w.deciphered q2 k := by
  have hserver : (server q2).run w = .ok (w.servers q2) w := rfl
  unfold checkAnswer at h
  by_cases hlen : rsaLen < cipher.length
  · rw [if_pos hlen] at h
    cases h
  rw [if_neg hlen, run_bind_of_ok hserver] at h
  unfold Q2Server.accepts
  cases hk : (w.servers q2).publickey with
  | none =>
    rw [hk] at h
    cases h
  | some k =>
    have hused : (logEvent (.used q2 .key k.handle)).run w = .ok () (w.deciphered q2 k) := rfl
    rw [hk] at h
    dsimp only at h ⊢
    rw [run_bind_of_ok hused] at h
    cases hd : c.rsaPublicDecrypt k.key cipher with
    | none =>
      rw [hd] at h
      cases h
      exact ⟨by simp, k, rfl, rfl⟩
    | some plaintext =>
      rw [hd] at h
      dsimp only at h
      by_cases hlong : challengeLen < plaintext.length
      · rw [if_pos hlong] at h
        cases h
      rw [if_neg hlong] at h
      have hfield := (w.servers q2).connection.clChallenge.length_eq
      by_cases hsize : plaintext.length ≠ challengeLen
      · rw [if_pos hsize] at h
        cases h
        have hne : plaintext ≠ (w.servers q2).connection.clChallenge.bytes := by
          rintro rfl
          exact hsize hfield
        exact ⟨by simp [hne], k, rfl, rfl⟩
      rw [if_neg hsize] at h
      by_cases heq : plaintext = (w.servers q2).connection.clChallenge.bytes
      · rw [if_pos heq, run_bind_of_ok (grantTrust_run q2 _)] at h
        cases h
        exact ⟨by simp [heq], k, rfl, rfl⟩
      · rw [if_neg heq] at h
        cases h
        exact ⟨by simp [heq], k, rfl, rfl⟩

/-- A record whose connection has been closed. -/
def Q2Server.disconnect (s : Q2Server) : Q2Server := { s with connected := false, index := 0 }

namespace World

/-- The events in which a pointer is freed, if it is not null. -/
def releasing (q2 : Fin N) (cell : Cell) (handle : Option Nat) : List Event :=
  (handle.map (.released q2 cell)).toList

/-- The state in which `CloseConnection` rebuilds the poll table. -/
def closing (w : World N) (q2 : Fin N) : World N :=
  { w.updateServer q2 Q2Server.disconnect with
    trace := .closed (w.servers q2).socket ::
      (releasing q2 .eCtx (w.servers q2).connection.eCtx ++
        (releasing q2 .dCtx (w.servers q2).connection.dCtx ++
          (releasing q2 .key ((w.servers q2).publickey.map RsaKey.handle) ++ w.trace))) }

/-- The server that is closed is not connected. -/
@[simp] theorem closing_self (w : World N) (q2 : Fin N) :
    (w.closing q2).servers q2 = (w.servers q2).disconnect := w.updateServer_self q2 _

/-- Other servers are not closed. -/
@[simp] theorem closing_of_ne (w : World N) {q2 s : Fin N} (hs : s ≠ q2) :
    (w.closing q2).servers s = w.servers s := w.updateServer_of_ne _ hs

end World

/-- Freeing a handle notes it, unless there is none. -/
theorem release_run (q2 : Fin N) (cell : Cell) (handle : Option Nat) (w : World N) :
    (release q2 cell handle).run w =
      .ok () { w with trace := World.releasing q2 cell handle ++ w.trace } := by
  cases handle with
  | none => rfl
  | some h => rfl

/-- `CloseConnection` releases, closes, disconnects, and rebuilds the table. -/
theorem closeConnection_run (q2 : Fin N) (w : World N) :
    (closeConnection q2).run w = removeServerSocket.run (w.closing q2) := by
  have hserver : (server q2).run w = .ok (w.servers q2) w := rfl
  unfold closeConnection
  rw [run_bind_of_ok hserver, run_bind_of_ok (release_run _ _ _ _),
    run_bind_of_ok (release_run _ _ _ _), run_bind_of_ok (release_run _ _ _ _)]
  rfl

/-- A rebuild of the poll table changes nothing but the table and the places in it. -/
theorem removeServerSocket_frame {w w' : World N} (h : removeServerSocket.run w = .ok () w') :
    w'.trace = w.trace ∧ w'.nextHandle = w.nextHandle ∧ w'.msg = w.msg ∧
      ∀ s, w'.servers s = { w.servers s with index := (w'.servers s).index } := by
  have hrest (s : Fin N) : { w'.servers s with index := 0 } = { w.servers s with index := 0 } :=
    (keeps_removeServerSocket (v := fun r ↦ { r with index := 0 }) (fun _ _ ↦ rfl) s).ok h
  have hframe := (keeps_rebuild (v := fun w : World N ↦ (w.trace, w.nextHandle, w.msg))
    (fun _ _ _ ↦ rfl) (fun _ _ _ ↦ rfl) fun _ _ ↦ rfl).ok h
  refine ⟨congrArg Prod.fst hframe, congrArg (fun p ↦ p.2.1) hframe,
    congrArg (fun p ↦ p.2.2) hframe, fun s ↦ ?_⟩
  exact congrArg (fun r ↦ { r with index := (w'.servers s).index }) (hrest s)

end Q2Admin
