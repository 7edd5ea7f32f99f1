import Q2Admin.Session.Sends

/-!
# Formatted texts

Library `Q2Admin.Session`. What the calls of `va` in the handlers leave in its buffers. A format
whose arguments are in none of them has a text of its own, which the next call leaves alone; every
text fits its buffer.
-/

namespace Q2Admin

open Exec

variable {N : Nat} {q2 : Fin N} {w w' : World N}

/-- What `va` keeps of a format whose arguments are in none of its buffers. -/
def vaText (format : List Piece) : List UInt8 :=
  (format.flatMap (Piece.print fun _ ↦ [])).take (maxStringChars - 1)

/-- What `va` formats is cut off in front of the end of its buffer. -/
theorem vaText_length (format : List Piece) : (vaText format).length < maxStringChars := by
  have hsize : maxStringChars = 1024 := rfl
  unfold vaText
  rw [List.length_take]
  omega

/-- A format whose arguments are in none of the buffers of `va`. -/
def Fixed (format : List Piece) : Prop := ∀ slot, .str (.ring slot) ∉ format

private theorem print_of_fixed {format : List Piece} (h : Fixed format)
    (rings : Fin 8 → List UInt8) :
    (format.flatMap (Piece.print rings)).take (maxStringChars - 1) = vaText format := by
  have hpieces : ∀ p ∈ format, Piece.print rings p = Piece.print (fun _ ↦ []) p := by
    intro p hp
    cases p with
    | text s => rfl
    | str p =>
      cases p with
      | fixed s => rfl
      | ring slot => exact absurd hp (h slot)
  have hflat : format.flatMap (Piece.print rings) =
      format.flatMap (Piece.print fun _ ↦ []) := by
    rw [List.flatMap_def, List.flatMap_def, List.map_congr_left hpieces]
  unfold vaText
  rw [hflat]

/-- Such a format is put into the next buffer of `va`. -/
theorem va_fixed {format : List Piece} (h : Fixed format) :
    (va format).run w = .ok (.ring w.vaSlot) (w.formatted format) ∧
      (w.formatted format).vaStrings w.vaSlot = vaText format := by
  refine ⟨va_run (h w.vaSlot), ?_⟩
  rw [← print_of_fixed h w.vaStrings]
  exact Function.update_self _ _ _

/-- The number of the next buffer wraps at a multiple of eight. -/
theorem vaIndex_succ (i : UInt16) : (i + 1).toNat % 8 = (i.toNat + 1) % 8 := by
  rw [UInt16.toNat_add]
  have hone : (1 : UInt16).toNat = 1 := rfl
  omega

/-- The next call of `va` leaves the string of the one before. -/
theorem World.formatted_keeps (w : World N) (format format' : List Piece) :
    ((w.formatted format).formatted format').vaStrings w.vaSlot =
      (w.formatted format).vaStrings w.vaSlot := by
  have hne : w.vaSlot ≠ (w.formatted format).vaSlot := by
    intro he
    have hval : w.vaIndex.toNat % 8 = (w.vaIndex + 1).toNat % 8 := congrArg Fin.val he
    have hnext := vaIndex_succ w.vaIndex
    omega
  exact Function.update_of_ne hne _ _

/-- `va` formats into the next buffer, which none of its arguments may be. -/
theorem va_ok {format : List Piece} {p : CharPtr} (h : (va format).run w = .ok p w') :
    .str (.ring w.vaSlot) ∉ format ∧ p = .ring w.vaSlot ∧ w' = w.formatted format := by
  have hslot : (look World.vaSlot).run w = .ok w.vaSlot w := rfl
  unfold va at h
  rw [run_bind_of_ok hslot] at h
  obtain ⟨_, w₂, h₂, h⟩ := run_bind_ok h
  cases h₂
  split at h
  · cases h
  · next hno =>
    cases h
    exact ⟨hno, rfl, rfl⟩

/-- Nothing else stops `va` than an argument in the buffer that it writes. -/
theorem va_error {format : List Piece} {e : Fault} (h : (va format).run w = .error e w') :
    e = .overlap := by
  have hslot : (look World.vaSlot).run w = .ok w.vaSlot w := rfl
  have hnext : (modify fun w : World N ↦ { w with vaIndex := w.vaIndex + 1 } : M N _).run w =
      .ok () { w with vaIndex := w.vaIndex + 1 } := rfl
  by_cases hno : .str (.ring w.vaSlot) ∈ format
  · unfold va at h
    rw [run_bind_of_ok hslot, run_bind_of_ok hnext, if_pos hno] at h
    cases h
    rfl
  · rw [va_run hno] at h
    cases h

/-- What `va` returns is a string that fits its buffer. -/
theorem va_length {format : List Piece} {p : CharPtr} (h : (va format).run w = .ok p w') :
    (p.deref w'.vaStrings).length < maxStringChars := by
  have hsize : maxStringChars = 1024 := rfl
  obtain ⟨_, rfl, rfl⟩ := va_ok h
  change ((w.formatted format).vaStrings w.vaSlot).length < _
  have hstring : (w.formatted format).vaStrings w.vaSlot =
      (format.flatMap (Piece.print w.vaStrings)).take (maxStringChars - 1) :=
    Function.update_self _ _ _
  rw [hstring, List.length_take]
  omega

private theorem teleportServer_length {str p : CharPtr}
    (hstr : (str.deref w.vaStrings).length < maxStringChars)
    (h : (teleportServer str q2).run w = .ok p w') :
    (p.deref w'.vaStrings).length < maxStringChars := by
  have hserver : (server q2).run w = .ok (w.servers q2) w := rfl
  unfold teleportServer at h
  rw [run_bind_of_ok hserver] at h
  split at h
  · cases h
    exact hstr
  · obtain ⟨_, w₂, _, h⟩ := run_bind_ok h
    split at h
    · cases h
    · exact va_length h

/-- The list of servers for players is a string that fits a buffer of `va`. -/
theorem buildTeleportServers_length {p : CharPtr}
    (h : buildTeleportServers.run w = .ok p w') :
    (p.deref w'.vaStrings).length < maxStringChars := by
  refine foldlM_ok (P := fun str w ↦ (str.deref w.vaStrings).length < maxStringChars)
    (fun _ _ _ _ _ _ ↦ teleportServer_length) ?_ h
  change (ascii "\n").length < maxStringChars
  decide

/-- Of parts that print no NUL no NUL is kept. -/
theorem nul_notMem_print {format : List Piece} {rings : Fin 8 → List UInt8}
    (h : ∀ a ∈ format, (0 : UInt8) ∉ a.print rings) (n : Nat) :
    (0 : UInt8) ∉ (format.flatMap (Piece.print rings)).take n := fun hmem ↦ by
  obtain ⟨a, ha, hnul⟩ := List.mem_flatMap.mp (List.mem_of_mem_take hmem)
  exact h a ha hnul

/-- What `va` returns then is a string up to its end. -/
theorem nul_notMem_va {format : List Piece} {p : CharPtr}
    (hformat : ∀ a ∈ format, (0 : UInt8) ∉ a.print w.vaStrings)
    (h : (va format).run w = .ok p w') : (0 : UInt8) ∉ p.deref w'.vaStrings := by
  obtain ⟨_, rfl, rfl⟩ := va_ok h
  have hstring : (w.formatted format).vaStrings w.vaSlot =
      (format.flatMap (Piece.print w.vaStrings)).take (maxStringChars - 1) :=
    Function.update_self _ _ _
  change (0 : UInt8) ∉ (w.formatted format).vaStrings w.vaSlot
  rw [hstring]
  exact nul_notMem_print hformat _

/-- What was a string stays one, even in the buffer that `va` writes. -/
theorem nul_notMem_kept {format : List Piece} {p q : CharPtr}
    (hformat : ∀ a ∈ format, (0 : UInt8) ∉ a.print w.vaStrings)
    (hq : (0 : UInt8) ∉ q.deref w.vaStrings) (h : (va format).run w = .ok p w') :
    (0 : UInt8) ∉ q.deref w'.vaStrings := by
  have hown := nul_notMem_va hformat h
  obtain ⟨_, rfl, rfl⟩ := va_ok h
  cases q with
  | fixed s => exact hq
  | ring slot =>
    by_cases hs : slot = w.vaSlot
    · rw [hs]
      exact hown
    · have hkept : (w.formatted format).vaStrings slot = w.vaStrings slot :=
        Function.update_of_ne hs _ _
      change (0 : UInt8) ∉ (w.formatted format).vaStrings slot
      rw [hkept]
      exact hq

private theorem nul_notMem_catPlayer {str : CharPtr} {players players' : List UInt8} {i : Nat}
    (h : (0 : UInt8) ∉ players ∧ (0 : UInt8) ∉ str.deref w.vaStrings)
    (hrun : (catPlayer q2 players i).run w = .ok players' w') :
    (0 : UInt8) ∉ players' ∧ (0 : UInt8) ∉ str.deref w'.vaStrings := by
  obtain ⟨s, w₁, h₁, hrun⟩ := run_bind_ok hrun
  obtain ⟨rfl, rfl⟩ := look_ok h₁
  obtain ⟨p, w₂, h₂, hrun⟩ := run_bind_ok hrun
  obtain ⟨name, w₃, h₃, hrun⟩ := run_bind_ok hrun
  obtain ⟨rfl, rfl⟩ := look_ok h₃
  have hcomma : (0 : UInt8) ∉ ascii ", " := by decide
  have hformat : ∀ a ∈ [Piece.str (.fixed ((w.servers q2).players i.toUInt8).nameStr),
      .text (ascii ", ")], (0 : UInt8) ∉ a.print w.vaStrings := by
    simp only [List.forall_mem_cons, Piece.print, CharPtr.deref]
    exact ⟨nul_notMem_cstr _, hcomma, nofun⟩
  have hname := nul_notMem_va hformat h₂
  split at hrun
  · cases hrun
  · cases hrun
    exact ⟨fun hmem ↦ (List.mem_append.mp hmem).elim h.1 hname, nul_notMem_kept hformat h.2 h₂⟩

/-- A number in decimal form has no NUL in it. -/
theorem nul_notMem_decimal (n : Nat) : (0 : UInt8) ∉ decimal n := fun hmem ↦ by
  have hbounds := digit_of_mem_decimal hmem
  exact absurd hbounds.1 (by decide)

private theorem nul_notMem_teleportLine (s : Q2Server) {players : List UInt8}
    (h : (0 : UInt8) ∉ players) : (0 : UInt8) ∉ teleportLine s players := by
  have hname : (0 : UInt8) ∉ s.nameStr := nul_notMem_cstr _
  have hmap : (0 : UInt8) ∉ s.mapStr := nul_notMem_cstr _
  have hliterals : (0 : UInt8) ∉ ascii " (" ∧ (0 : UInt8) ∉ ascii "/" ∧
      (0 : UInt8) ∉ ascii ") " ∧ (0 : UInt8) ∉ ([0x20] : List UInt8) := by decide
  obtain ⟨hopen, hslash, hclose, hblank⟩ := hliterals
  have hpad : (0 : UInt8) ∉ List.replicate (17 - s.nameStr.length) 0x20 := fun hmem ↦ by
    have hnul := List.eq_of_mem_replicate hmem
    cases hnul
  intro hmem
  replace hmem := List.mem_of_mem_take hmem
  simp only [padRight, List.mem_append, hname, hmap, hopen, hslash, hclose, hblank, hpad, h,
    nul_notMem_decimal, or_self] at hmem

private theorem nul_notMem_teleportServer {str p : CharPtr}
    (hstr : (0 : UInt8) ∉ str.deref w.vaStrings)
    (h : (teleportServer str q2).run w = .ok p w') : (0 : UInt8) ∉ p.deref w'.vaStrings := by
  obtain ⟨s, w₁, h₁, h⟩ := run_bind_ok h
  obtain ⟨rfl, rfl⟩ := look_ok h₁
  split at h
  · cases h
    exact hstr
  · obtain ⟨players, w₂, h₂, h⟩ := run_bind_ok h
    obtain ⟨hplayers, hstr⟩ := foldlM_ok
      (P := fun players w ↦ (0 : UInt8) ∉ players ∧ (0 : UInt8) ∉ str.deref w.vaStrings)
      (fun _ _ _ _ _ _ ↦ nul_notMem_catPlayer) ⟨List.not_mem_nil, hstr⟩ h₂
    split at h
    · cases h
    · have hend : (0 : UInt8) ∉ ascii "\n" := by decide
      have hline := nul_notMem_teleportLine (w.servers q2)
        fun hmem ↦ hplayers (List.mem_of_mem_take (i := players.length - 2) hmem)
      refine nul_notMem_va ?_ h
      simp only [List.forall_mem_cons, Piece.print, CharPtr.deref]
      exact ⟨hstr, hline, hend, nofun⟩

/-- The list of servers for players is a string up to its end. -/
theorem nul_notMem_buildTeleportServers {p : CharPtr}
    (h : buildTeleportServers.run w = .ok p w') : (0 : UInt8) ∉ p.deref w'.vaStrings := by
  refine foldlM_ok (P := fun str w ↦ (0 : UInt8) ∉ str.deref w.vaStrings)
    (fun _ _ _ _ _ _ ↦ nul_notMem_teleportServer) ?_ h
  change (0 : UInt8) ∉ ascii "\n"
  decide

end Q2Admin
