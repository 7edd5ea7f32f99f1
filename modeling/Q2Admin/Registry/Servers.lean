import Q2Admin.Model.Loop
import Q2Admin.Registry.Lists

/-!
# Loading the servers

Library `Q2Admin.Registry`. Source `server.c:104–176`. `LoadServers` allocates a record for each row
of the database and appends it to `q2srvlist`. A record is identified with the node in it. From then
on, `FOR_EACH_SERVER` goes through the records in the order of the rows, and the loops that look for
a server find what `World` finds by position.
-/

namespace Q2Admin

variable {N : Nat} {σ ρ : Type}

/-- The node of the head `q2srvlist`; `server.c:4`. -/
def q2srvlist : Nat := 1

/-- The links of the servers, and their records. A null pointer is zero, which is no node. -/
structure Registry where
  links : Links Nat
  record : Nat → Option Q2Server
  /-- The next allocation of a record. -/
  nextServer : Nat

/-- `LIST_DECL(q2srvlist)`, with no records allocated; `server.c:4`. -/
def Registry.declared : Registry where
  links :=
    ⟨Function.update (fun _ ↦ none) q2srvlist (some q2srvlist),
      Function.update (fun _ ↦ none) q2srvlist (some q2srvlist)⟩
  record _ := none
  nextServer := q2srvlist + 1

/-- The columns of a row, as `sqlite3_column_int` and `sqlite3_column_text` return them; a text may
be `NULL`. -/
structure SqlRow where
  int : Nat → UInt32
  text : Nat → Option (List UInt8)

/-- What `LoadServers` reads of a row; there is no result where it copies a text that is `NULL`;
`server.c:128–134`. -/
def SqlRow.read (r : SqlRow) : Option Row := do
  let name ← r.text 4
  let ip ← r.text 5
  return ⟨r.int 0, r.int 2, r.int 3, name, ip, (r.int 6).toUInt16, r.int 7 ≠ 0⟩

/-- What the database answers: whether it is open, whether the query can be prepared, and the rows,
with whether there is memory for their records. -/
inductive Database
  | closed
  | unprepared
  | rows (rows : List (SqlRow × Bool))

/-- A round for one row; `server.c:124–136`. -/
def loadServer (g : Registry) (answer : SqlRow × Bool) : Option Registry := do
  guard answer.2
  let row ← answer.1.read
  let p := g.nextServer
  let cleared : Links Nat :=
    ⟨Function.update g.links.next p (some 0), Function.update g.links.prev p (some 0)⟩
  let links ← listAppend q2srvlist p cleared
  return ⟨links, Function.update g.record p (some row.load), p + 1⟩

/-- `LoadServers` with what it returns, if it does not use memory that is not there;
`server.c:104–147`. -/
def loadServers (db : Database) (g : Registry) : Option (Bool × Registry) := do
  let links ← listInit q2srvlist g.links
  match db with
  | .closed | .unprepared => return (false, { g with links := links })
  | .rows rows =>
    let g ← rows.foldlM loadServer { g with links := links }
    return (true, g)

namespace Registry

/-- `FOR_EACH_SERVER` with a body that gets the cursor and its record; `server.h:91–92`. -/
def forEachServer (g : Registry) (fuel : Nat) (body : σ → Nat → Q2Server → σ ⊕ ρ) (done : σ → ρ)
    (s : σ) : Option ρ :=
  (g.links.walk fuel q2srvlist
    (fun s cursor ↦
      match g.record cursor with
      | some server => (body s cursor server).map id some
      | none => .inr none)
    (fun s ↦ some (done s)) s).join

/-- A loop that returns the first server with a property. -/
def firstServer (g : Registry) (fuel : Nat) (p : Q2Server → Bool) : Option (Option Nat) :=
  g.forEachServer fuel
    (fun (_ : Unit) cursor server ↦ if p server then .inr (some cursor) else .inl ())
    (fun _ ↦ none) ()

/-- `get_server`; `server.c:491–502`. -/
def getServer (g : Registry) (fuel : Nat) (index : Nat) : Option (Option Nat) :=
  g.firstServer fuel fun s ↦ s.index = index

/-- `find_server`, and the search in `new_server`; `server.c:152–163`, `server.c:519–520`. -/
def findServer (g : Registry) (fuel : Nat) (key : UInt32) : Option (Option Nat) :=
  g.firstServer fuel fun s ↦ key = s.key

/-- `find_server_by_name`; `server.c:169–180`. -/
def findServerByName (g : Registry) (fuel : Nat) (name : List UInt8) : Option (Option Nat) :=
  g.firstServer fuel fun s ↦ s.nameStr = name

/-- The search in `ParseTeleport`, which goes on when it has found a server; `parse.c:153–157`. -/
def teleportTarget (g : Registry) (fuel : Nat) (location : List UInt8) : Option (Option Nat) :=
  g.forEachServer fuel
    (fun found cursor server ↦
      (.inl (if server.nameStr = location then some cursor else found) : Option Nat ⊕ Option Nat))
    id none

/-- The records of the servers are at these nodes, which form the list in this order. -/
structure Shows (g : Registry) (node : Fin N → Nat) (servers : Fin N → Q2Server) : Prop where
  ring : g.links.Ring q2srvlist ((serverList N).map node)
  record : ∀ q2, g.record (node q2) = some (servers q2)

variable {g : Registry} {node : Fin N → Nat} {servers : Fin N → Q2Server}

private theorem eachOf_map (body : σ → Nat → Q2Server → σ ⊕ ρ) (done : σ → ρ)
    (hrecord : ∀ q2, g.record (node q2) = some (servers q2)) (l : List (Fin N)) (s : σ) :
    eachOf (fun s cursor ↦
        match g.record cursor with
        | some server => (body s cursor server).map id some
        | none => .inr none) (fun s ↦ some (done s)) (l.map node) s =
      some (eachOf (fun s q2 ↦ body s (node q2) (servers q2)) done l s) := by
  induction l generalizing s with
  | nil => rfl
  | cons q2 l ih =>
    rw [List.map_cons]
    unfold eachOf
    simp only [hrecord q2]
    cases body s (node q2) (servers q2) with
    | inl s' => exact ih s'
    | inr r => rfl

/-- `FOR_EACH_SERVER` is a loop over the servers in their order. -/
theorem Shows.forEachServer (h : g.Shows node servers) (body : σ → Nat → Q2Server → σ ⊕ ρ)
    (done : σ → ρ) (s : σ) {fuel : Nat} (hfuel : N < fuel) :
    g.forEachServer fuel body done s =
      some (eachOf (fun s q2 ↦ body s (node q2) (servers q2)) done (serverList N) s) := by
  have hlength : ((serverList N).map node).length < fuel := by
    rw [List.length_map, serverList, List.length_finRange]
    exact hfuel
  unfold Registry.forEachServer
  rw [h.ring.walk _ _ s hlength, eachOf_map body done h.record]
  rfl

/-- The loop that looks for the first server with a property finds it. -/
theorem Shows.firstServer (h : g.Shows node servers) (p : Q2Server → Bool) {fuel : Nat}
    (hfuel : N < fuel) :
    g.firstServer fuel p = some (((serverList N).find? fun q2 ↦ p (servers q2)).map node) := by
  have hfind (l : List (Fin N)) :
      eachOf (fun (_ : Unit) q2 ↦ if p (servers q2) then .inr (some (node q2)) else .inl ())
          (fun _ ↦ none) l () = (l.find? fun q2 ↦ p (servers q2)).map node := by
    induction l with
    | nil => rfl
    | cons q2 l ih =>
      unfold eachOf
      rw [List.find?_cons]
      cases p (servers q2) with
      | true => rfl
      | false => exact ih
  unfold Registry.firstServer
  rw [h.forEachServer _ _ () hfuel, hfind]

/-- The loop of `ParseTeleport` finds the last server of that name. -/
theorem Shows.teleportTarget (h : g.Shows node servers) (location : List UInt8) {fuel : Nat}
    (hfuel : N < fuel) :
    g.teleportTarget fuel location = some
      (((serverList N).reverse.find? fun q2 ↦ (servers q2).nameStr = location).map node) := by
  have hfold (l : List (Fin N)) (found : Option Nat) :
      eachOf (fun found q2 ↦
          (.inl (if (servers q2).nameStr = location then some (node q2) else found) :
            Option Nat ⊕ Option Nat)) id l found =
        ((l.reverse.find? fun q2 ↦ (servers q2).nameStr = location).map node).or found := by
    induction l generalizing found with
    | nil => rfl
    | cons q2 l ih =>
      refine (ih _).trans ?_
      rw [List.reverse_cons, List.find?_append]
      cases l.reverse.find? fun q2 ↦ decide ((servers q2).nameStr = location) with
      | some q2' => rfl
      | none =>
        by_cases hq2 : (servers q2).nameStr = location
        · simp [hq2]
        · simp [hq2]
  unfold Registry.teleportTarget
  rw [h.forEachServer _ _ none hfuel, hfold, Option.or_none]

-- The list has these nodes, which show these rows; what will be allocated is not among them.
private structure Loaded (g : Registry) (ps : List Nat) (rows : List Row) : Prop where
  ring : g.links.Ring q2srvlist ps
  records : ps.map g.record = rows.map fun row ↦ some row.load
  below : ∀ p ∈ q2srvlist :: ps, p < g.nextServer

private theorem holds_single {c : Links Nat} {h : Nat} {l : List Nat} (hring : c.Ring h l) :
    c.Holds (ListMap.single h l) := by
  refine ⟨fun h' m hm ↦ ?_, fun h₁ h₂ m₁ m₂ p hm₁ hm₂ _ _ ↦ ?_⟩
  · obtain ⟨rfl, rfl⟩ := ListMap.eq_of_single hm
    exact hring
  · exact (ListMap.eq_of_single hm₁).1.trans (ListMap.eq_of_single hm₂).1.symm

private theorem Loaded.add {ps : List Nat} {rows : List Row} (h : Loaded g ps rows) {r : SqlRow}
    {row : Row} (hrow : r.read = some row) :
    ∃ g', loadServer g (r, true) = some g' ∧
      Loaded g' (ps ++ [g.nextServer]) (rows ++ [row]) := by
  obtain ⟨cleared, hcleared⟩ : ∃ cleared : Links Nat, cleared =
      ⟨Function.update g.links.next g.nextServer (some 0),
        Function.update g.links.prev g.nextServer (some 0)⟩ := ⟨_, rfl⟩
  have hfresh : g.nextServer ∉ q2srvlist :: ps := fun hmem ↦ Nat.lt_irrefl _ (h.below _ hmem)
  have hne {p : Nat} (hp : p ∈ q2srvlist :: ps) : p ≠ g.nextServer := fun heq ↦ hfresh (heq ▸ hp)
  have hring : cleared.Ring q2srvlist ps := h.ring.congr
    (fun p hp ↦ hcleared ▸ Function.update_of_ne (hne hp) _ _)
    fun p hp ↦ hcleared ▸ Function.update_of_ne (hne hp) _ _
  have hhas : cleared.Has g.nextServer := by
    rw [hcleared]
    constructor
    · change Function.update _ _ _ _ ≠ _
      rw [Function.update_self]
      nofun
    · change Function.update _ _ _ _ ≠ _
      rw [Function.update_self]
      nofun
  have hstep : ListMap.Step (· = g.nextServer) (.single q2srvlist ps)
      (.append q2srvlist g.nextServer) (.single q2srvlist (ps ++ [g.nextServer])) :=
    .append_single rfl hfresh
  obtain ⟨links, hholds, -, bound, hrun⟩ :=
    (holds_single hring).step (fun p (hp : p = g.nextServer) ↦ hp ▸ hhas) hstep
  have hrun : listAppend q2srvlist g.nextServer cleared = some links := hrun bound (Nat.le_refl _)
  refine ⟨⟨links, Function.update g.record g.nextServer (some row.load), g.nextServer + 1⟩, ?_, ?_⟩
  · unfold loadServer
    simp only [hrow, ← hcleared, hrun]
    rfl
  · refine ⟨hholds.ring _ _ (ListMap.single_self _ _), ?_, fun p hp ↦ ?_⟩
    · change (ps ++ [_]).map (Function.update g.record g.nextServer (some row.load)) = _
      rw [List.map_append, List.map_append, List.map_singleton, List.map_singleton,
        Function.update_self, ← h.records]
      congr 1
      exact List.map_congr_left fun p hp ↦
        Function.update_of_ne (hne (List.mem_cons_of_mem _ hp)) _ _
    · rcases List.mem_append.mp (List.cons_append ▸ hp) with hp | hp
      · exact Nat.lt_succ_of_lt (h.below p hp)
      · exact List.mem_singleton.mp hp ▸ Nat.lt_succ_self _

private theorem loadServer_eq_none {r : SqlRow} {memory : Bool}
    (h : memory = false ∨ r.text 4 = none ∨ r.text 5 = none) : loadServer g (r, memory) = none := by
  unfold loadServer SqlRow.read
  rcases h with rfl | hname | hip
  · rfl
  · rw [hname]
    cases memory <;> rfl
  · rw [hip]
    cases memory <;> cases r.text 4 <;> rfl

private theorem Loaded.fold_eq_none {ps : List Nat} {rows : List Row} (h : Loaded g ps rows)
    (answers : List (SqlRow × Bool)) : answers.foldlM loadServer g = none ↔
      ∃ r ∈ answers, r.2 = false ∨ r.1.text 4 = none ∨ r.1.text 5 = none := by
  induction answers generalizing g ps rows with
  | nil => exact ⟨nofun, nofun⟩
  | cons answer answers ih =>
    obtain ⟨r, memory⟩ := answer
    rw [List.foldlM_cons]
    by_cases hbad : memory = false ∨ r.text 4 = none ∨ r.text 5 = none
    · rw [loadServer_eq_none hbad]
      exact ⟨fun _ ↦ ⟨_, List.mem_cons_self, hbad⟩, fun _ ↦ rfl⟩
    · obtain ⟨hmemory, htexts⟩ := not_or.mp hbad
      obtain ⟨hname, hip⟩ := not_or.mp htexts
      obtain rfl : memory = true := by simpa using hmemory
      obtain ⟨name, hname⟩ := Option.ne_none_iff_exists'.mp hname
      obtain ⟨ip, hip⟩ := Option.ne_none_iff_exists'.mp hip
      have hread : ∃ row, r.read = some row := by
        unfold SqlRow.read
        rw [hname, hip]
        exact ⟨_, rfl⟩
      obtain ⟨row, hrow⟩ := hread
      obtain ⟨g₁, hload, h₁⟩ := h.add hrow
      rw [hload, Option.bind_eq_bind, Option.bind_some, ih h₁]
      constructor
      · rintro ⟨r', hr', hbad'⟩
        exact ⟨r', List.mem_cons_of_mem _ hr', hbad'⟩
      · rintro ⟨r', hr', hbad'⟩
        rcases List.mem_cons.mp hr' with rfl | hr'
        · exact absurd hbad' hbad
        · exact ⟨r', hr', hbad'⟩

private theorem loaded_init (hhead : g.links.Has q2srvlist) (hnext : q2srvlist < g.nextServer) :
    ∃ links, listInit q2srvlist g.links = some links ∧ Loaded { g with links := links } [] [] := by
  have hnone : g.links.Holds fun _ ↦ none := ⟨nofun, nofun⟩
  obtain ⟨links, hinit, hholds, -⟩ := hnone.init nofun hhead
  refine ⟨links, hinit, hholds.ring _ _ (ListMap.single_self q2srvlist []), rfl, fun p hp ↦ ?_⟩
  rw [List.mem_singleton.mp hp]
  exact hnext

private theorem Loaded.all {ps : List Nat} {rows : List Row} (h : Loaded g ps rows)
    (answers : List (SqlRow × Bool)) (more : List Row)
    (hmore : answers.map (fun r ↦ (r.1.read, r.2)) = more.map fun row ↦ (some row, true)) :
    ∃ g' ps', answers.foldlM loadServer g = some g' ∧ Loaded g' ps' (rows ++ more) := by
  induction answers generalizing g ps rows more with
  | nil =>
    obtain rfl : more = [] := by simpa using hmore.symm
    exact ⟨g, ps, rfl, by rwa [List.append_nil]⟩
  | cons answer answers ih =>
    cases more with
    | nil => cases hmore
    | cons row more =>
      obtain ⟨r, memory⟩ := answer
      obtain ⟨hhead, hrest⟩ := List.cons.inj hmore
      obtain ⟨hrow, rfl⟩ := Prod.mk.inj hhead
      obtain ⟨g₁, hload, h₁⟩ := h.add hrow
      obtain ⟨g', ps', hfold, h'⟩ := ih h₁ more hrest
      refine ⟨g', ps', ?_, by rwa [List.append_assoc] at h'⟩
      rw [List.foldlM_cons, hload]
      exact hfold

end Registry

open Registry

/-- When every row has its texts and there is memory for its record, `LoadServers` returns true, and
the list goes through one record for each row, in the order of the rows, with what the state in
which the loop of `RunServer` is entered has for it. From then on, whatever the program writes into
the records, the loops over the list do what the model does with positions. -/
theorem server_list_refines {g : Registry} {answers : Fin N → SqlRow × Bool} {rows : Fin N → Row}
    (listener : Nat) (junk : Nat → PollFd) (hhead : g.links.Has q2srvlist)
    (hnext : q2srvlist < g.nextServer)
    (hrows : ∀ i, (answers i).1.read = some (rows i) ∧ (answers i).2 = true) :
    ∃ (g' : Registry) (node : Fin N → Nat),
      loadServers (.rows (List.ofFn answers)) g = some (true, g') ∧
      (∀ q2, g'.record (node q2) = some ((initial rows listener junk).servers q2)) ∧
      ∀ (w : World N) (g'' : Registry), g''.links = g'.links →
        (∀ q2, g''.record (node q2) = some (w.servers q2)) → ∀ fuel, N < fuel →
          (∀ index, g''.getServer fuel index = some ((w.getServer index).map node)) ∧
          (∀ key, g''.findServer fuel key = some ((w.serverOfKey key).map node)) ∧
          (∀ name, g''.findServerByName fuel name =
            some (((serverList N).find? fun q2 ↦ (w.servers q2).nameStr = name).map node)) ∧
          (∀ location, g''.teleportTarget fuel location = some
            (((serverList N).reverse.find? fun q2 ↦ (w.servers q2).nameStr = location).map node)) ∧
          ∀ (σ ρ : Type) (body : σ → Nat → Q2Server → σ ⊕ ρ) (done : σ → ρ) (s : σ),
            g''.forEachServer fuel body done s =
              some (eachOf (fun s q2 ↦ body s (node q2) (w.servers q2)) done (serverList N) s) := by
  obtain ⟨links, hinit, hstart⟩ := loaded_init hhead hnext
  have hmore : (List.ofFn answers).map (fun r ↦ (r.1.read, r.2)) =
      (List.ofFn rows).map fun row ↦ (some row, true) := by
    rw [List.map_ofFn, List.map_ofFn]
    exact congrArg List.ofFn (funext fun i ↦ Prod.ext (hrows i).1 (hrows i).2)
  obtain ⟨g', ps, hfold, hloaded⟩ := hstart.all _ _ hmore
  have hrecords := hloaded.records
  rw [List.nil_append] at hrecords
  have hlength : ps.length = N := by
    have hlength := congrArg List.length hrecords
    rwa [List.length_map, List.length_map, List.length_ofFn] at hlength
  subst hlength
  have hnodes : (serverList ps.length).map ps.get = ps := List.map_get_finRange ps
  refine ⟨g', ps.get, ?_, fun q2 ↦ ?_, fun w g'' hlinks hrecord fuel hfuel ↦ ?_⟩
  · unfold loadServers
    rw [hinit]
    simp only [Option.bind_eq_bind, Option.bind_some, hfold]
    rfl
  · have hq2 := List.getElem_of_eq hrecords (i := q2.val) (by simp)
    rw [List.getElem_map, List.getElem_map, List.getElem_ofFn] at hq2
    exact hq2
  · have hshows : g''.Shows ps.get w.servers :=
      ⟨by rw [hlinks, hnodes]; exact hloaded.ring, hrecord⟩
    exact ⟨fun index ↦ hshows.firstServer _ hfuel, fun key ↦ hshows.firstServer _ hfuel,
      fun name ↦ hshows.firstServer _ hfuel, fun location ↦ hshows.teleportTarget location hfuel,
      fun σ ρ body done s ↦ hshows.forEachServer body done s hfuel⟩

private def rowOfText (text : String) : SqlRow := ⟨fun _ ↦ 1, fun _ ↦ some (ascii text)⟩

/-- A server is found by its name behind two rows. -/
theorem server_list_refines_sample :
    ∃ (g' : Registry) (p : Nat),
      loadServers (.rows [(rowOfText "a", true), (rowOfText "b", true)]) .declared =
        some (true, g') ∧
      g'.findServerByName 3 (ascii "b") = some (some p) := by
  let text (i : Fin 2) : String := if i = 0 then "a" else "b"
  let rows (i : Fin 2) : Row := ⟨1, 1, 1, ascii (text i), ascii (text i), 1, true⟩
  have hrows (i : Fin 2) : ((rowOfText (text i), true) : SqlRow × Bool).1.read = some (rows i) ∧
      ((rowOfText (text i), true) : SqlRow × Bool).2 = true := ⟨rfl, rfl⟩
  obtain ⟨g', node, hload, hrecord, hloops⟩ := server_list_refines (g := .declared) 3
    (fun _ ↦ ⟨0, false, false⟩) ⟨by decide, by decide⟩ (by decide) hrows
  obtain ⟨-, -, hname, -⟩ := hloops _ g' rfl hrecord 3 (by decide)
  have hfind : ((serverList 2).find? fun q2 ↦ (rows q2).load.nameStr = ascii "b") = some 1 := by
    decide +kernel
  exact ⟨g', node 1, hload, (hname _).trans (congrArg (fun q2 ↦ some (q2.map node)) hfind)⟩

/-- `LoadServers` uses memory that is not there exactly if the name or the address of a row is
`NULL` or there is no memory for its record. Otherwise it returns true if the query could be made,
and else false, with a list without servers. -/
theorem load_servers_outcome {g : Registry} (db : Database) (hhead : g.links.Has q2srvlist)
    (hnext : q2srvlist < g.nextServer) :
    (loadServers db g = none ↔ ∃ answers, db = .rows answers ∧
      ∃ r ∈ answers, r.2 = false ∨ r.1.text 4 = none ∨ r.1.text 5 = none) ∧
    ∀ ok g', loadServers db g = some (ok, g') →
      (ok = true ↔ ∃ answers, db = .rows answers) ∧
        (ok = false → g'.links.Ring q2srvlist [] ∧ g'.record = g.record) := by
  obtain ⟨links, hinit, hstart⟩ := loaded_init hhead hnext
  unfold loadServers
  rw [hinit]
  cases db with
  | closed =>
    refine ⟨⟨nofun, nofun⟩, fun ok g' heq ↦ ?_⟩
    cases heq
    exact ⟨⟨nofun, nofun⟩, fun _ ↦ ⟨hstart.ring, rfl⟩⟩
  | unprepared =>
    refine ⟨⟨nofun, nofun⟩, fun ok g' heq ↦ ?_⟩
    cases heq
    exact ⟨⟨nofun, nofun⟩, fun _ ↦ ⟨hstart.ring, rfl⟩⟩
  | rows answers =>
    have hnone := hstart.fold_eq_none answers
    simp only [Option.bind_eq_bind, Option.bind_some]
    cases hfold : answers.foldlM loadServer { g with links := links } with
    | none =>
      rw [hfold] at hnone
      exact ⟨⟨fun _ ↦ ⟨answers, rfl, hnone.mp rfl⟩, fun _ ↦ rfl⟩, nofun⟩
    | some g₁ =>
      rw [hfold] at hnone
      refine ⟨⟨nofun, ?_⟩, fun ok g' heq ↦ ?_⟩
      · rintro ⟨_, heq, hbad⟩
        cases heq
        cases hnone.mpr hbad
      · cases heq
        exact ⟨⟨fun _ ↦ ⟨answers, rfl⟩, fun _ ↦ rfl⟩, nofun⟩

/-- A column without a text stops the program. -/
theorem load_servers_outcome_sample :
    loadServers (.rows [(rowOfText "a", true), (⟨fun _ ↦ 1, fun _ ↦ none⟩, true)]) .declared =
      none := by
  refine (load_servers_outcome _ ⟨by decide, by decide⟩ (by decide)).1.mpr ⟨_, rfl, ?_⟩
  exact ⟨_, List.mem_cons_of_mem _ List.mem_cons_self, .inr (.inl rfl)⟩

end Q2Admin
