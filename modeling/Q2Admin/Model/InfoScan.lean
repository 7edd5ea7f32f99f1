import Q2Admin.Base.While
import Q2Admin.Model.Userinfo

/-!
# The scan of a userinfo string in memory

Library `Q2Admin.Model`. Source `util.c:71–108`. `Info_ValueForKey` as it moves through memory: one
character of the string in every round, `*o++ = *s++` or the end of a loop. Memory behind the
terminator of the string is arbitrary. `infoScan_stops`: the scan ends, at the latest at the
terminator, with what `infoValueForKey` says.
-/

namespace Q2Admin

/-- The two loops; `util.c:84` and `util.c:94`. -/
inductive InfoPhase
  | key
  | value
  deriving DecidableEq

/-- The variables of `Info_ValueForKey`: the loop it is in, the offset of `s`, and what has been
stored in `pkey` and `value[valueindex]`, where `o` is behind the last byte of one of them.
`touched` is no variable: it is one more than the highest offset that has been looked at. -/
structure InfoState where
  phase : InfoPhase
  s : Nat
  pkey : List UInt8
  value : List UInt8
  touched : Nat

/-- What a call ends with: a string or a fault, and the bytes of the string looked at. -/
structure InfoExit where
  result : Except Fault (List UInt8)
  touched : Nat
  deriving DecidableEq

/-- One more than the highest offset looked at, after `*s`. -/
def InfoState.look (st : InfoState) : Nat := max st.touched (st.s + 1)

/-- One round of the loops over the character at `s`; `util.c:82–107`. A store through `o` is in
its array while that holds fewer than `infoSize` bytes. The test for the end of the string inside
the second loop is never met. -/
def infoRound (mem : Nat → UInt8) (key : List UInt8) (st : InfoState) : InfoState ⊕ InfoExit :=
  let c := mem st.s
  match st.phase with
  | .key =>
    if c ≠ backslash then
      if c = 0 then .inr ⟨.ok [], st.look⟩
      else if st.pkey.length < infoSize then
        .inl { st with s := st.s + 1, pkey := st.pkey ++ [c], touched := st.look }
      else .inr ⟨.error .overwrite, st.look⟩
    else if st.pkey.length < infoSize then
      .inl { st with phase := .value, s := st.s + 1, value := [], touched := st.look }
    else .inr ⟨.error .overwrite, st.look⟩
  | .value =>
    if c ≠ backslash ∧ c ≠ 0 then
      if st.value.length < infoSize then
        .inl { st with s := st.s + 1, value := st.value ++ [c], touched := st.look }
      else .inr ⟨.error .overwrite, st.look⟩
    else if st.value.length < infoSize then
      if key = st.pkey then .inr ⟨.ok st.value, st.look⟩
      else if c = 0 then .inr ⟨.ok [], st.look⟩
      else .inl { st with phase := .key, s := st.s + 1, pkey := [], touched := st.look }
    else .inr ⟨.error .overwrite, st.look⟩

/-- The state in which the loops start; `util.c:79–83`. -/
def infoStart (mem : Nat → UInt8) : InfoState where
  phase := .key
  s := if mem 0 = backslash then 1 else 0
  pkey := []
  value := []
  touched := 1

/-- A string with its terminator stands at an offset of memory. -/
def StringAt (mem : Nat → UInt8) : Nat → List UInt8 → Prop
  | i, [] => mem i = 0
  | i, c :: s => mem i = c ∧ StringAt mem (i + 1) s

/-- The call stops with the result and has looked at no offset from a bound on. -/
def InfoStops (mem : Nat → UInt8) (key : List UInt8) (st : InfoState)
    (r : Except Fault (List UInt8)) (bound : Nat) : Prop :=
  ∃ touched, Stops (infoRound mem key) st ⟨r, touched⟩ ∧ touched ≤ bound

-- What is left of the string, the first piece of it behind what has been copied.
private def behind (copied s : List UInt8) : List (List UInt8) :=
  (s.splitOn backslash).modifyHead (copied ++ ·)

private theorem behind_nil (copied : List UInt8) : behind copied [] = [copied] := by
  unfold behind
  rw [List.splitOn_nil, List.modifyHead_cons, List.append_nil]

private theorem behind_empty (s : List UInt8) : behind [] s = s.splitOn backslash := by
  obtain ⟨p, rest, hp⟩ := List.exists_cons_of_ne_nil (List.splitOn_ne_nil backslash s)
  unfold behind
  rw [hp, List.modifyHead_cons, List.nil_append]

private theorem behind_backslash (copied s : List UInt8) :
    behind copied (backslash :: s) = copied :: behind [] s := by
  rw [behind_empty]
  unfold behind
  rw [List.splitOn_cons_eq_if_modifyHead, if_pos (beq_self_eq_true _), List.modifyHead_cons,
    List.append_nil]

private theorem behind_cons {c : UInt8} (hc : c ≠ backslash) (copied s : List UInt8) :
    behind copied (c :: s) = behind (copied ++ [c]) s := by
  have hne : (c == backslash) = false := beq_false_of_ne hc
  obtain ⟨p, rest, hp⟩ := List.exists_cons_of_ne_nil (List.splitOn_ne_nil backslash s)
  unfold behind
  rw [List.splitOn_cons_eq_if_modifyHead, hne, hp]
  simp

-- The first of the pieces is as long as what has been copied, or longer.
private theorem behind_head (copied s : List UInt8) :
    ∃ p rest, behind copied s = p :: rest ∧ copied.length ≤ p.length := by
  obtain ⟨p, rest, hp⟩ := List.exists_cons_of_ne_nil (List.splitOn_ne_nil backslash s)
  refine ⟨copied ++ p, rest, by unfold behind; rw [hp, List.modifyHead_cons], ?_⟩
  rw [List.length_append]
  omega

private theorem infoResult_long_key {key pkey : List UInt8} {pieces : List (List UInt8)}
    (h : infoSize < pkey.length) : infoResult key (pkey :: pieces) = .error .overwrite := by
  cases pieces with
  | nil =>
    unfold infoResult
    rw [if_pos h]
  | cons value rest =>
    unfold infoResult
    rw [if_pos (.inl (Nat.le_of_lt h))]

section Scan

variable {mem : Nat → UInt8} {key s pkey value : List UInt8} {c : UInt8} {i touched bound : Nat}
  {st st' : InfoState} {r : Except Fault (List UInt8)}

private theorem infoStops_inr (h : infoRound mem key st = .inr ⟨r, st.look⟩)
    (hbound : st.look ≤ bound) : InfoStops mem key st r bound :=
  ⟨st.look, .of_inr h, hbound⟩

private theorem infoStops_inl (h : infoRound mem key st = .inl st')
    (hrest : InfoStops mem key st' r bound) : InfoStops mem key st r bound := by
  obtain ⟨touched, hstops, hle⟩ := hrest
  exact ⟨touched, .of_inl h hstops, hle⟩

-- The first loop, over the rest of a string.
private def KeyScan (mem : Nat → UInt8) (key : List UInt8) (i : Nat) (s : List UInt8) : Prop :=
  ∀ pkey value touched, pkey.length ≤ infoSize → touched ≤ i + s.length + 1 →
    InfoStops mem key ⟨.key, i, pkey, value, touched⟩ (infoResult key (behind pkey s))
      (i + s.length + 1)

-- The second loop, over the rest of a string.
private def ValueScan (mem : Nat → UInt8) (key : List UInt8) (i : Nat) (s : List UInt8) : Prop :=
  ∀ pkey value touched, pkey.length < infoSize → value.length ≤ infoSize →
    touched ≤ i + s.length + 1 →
    InfoStops mem key ⟨.value, i, pkey, value, touched⟩ (infoResult key (pkey :: behind value s))
      (i + s.length + 1)

private theorem keyScan_nil (h : mem i = 0) : KeyScan mem key i [] := by
  intro pkey value touched hk hbound
  have hround : infoRound mem key ⟨.key, i, pkey, value, touched⟩ =
      .inr ⟨.ok [], max touched (i + 1)⟩ := by
    simp [infoRound, InfoState.look, h, backslash]
  have hresult : infoResult key [pkey] = .ok [] := by
    unfold infoResult
    rw [if_neg (by omega)]
  rw [behind_nil, hresult]
  exact infoStops_inr hround (Nat.max_le.mpr ⟨hbound, Nat.le_refl _⟩)

private theorem infoStops_value {rest : List (List UInt8)} (h : mem i = c)
    (hend : c = backslash ∨ c = 0) (hk : pkey.length < infoSize)
    (hlook : max touched (i + 1) ≤ bound)
    (hother : value.length < infoSize → key ≠ pkey →
      InfoStops mem key ⟨.value, i, pkey, value, touched⟩ (infoResult key rest) bound) :
    InfoStops mem key ⟨.value, i, pkey, value, touched⟩ (infoResult key (pkey :: value :: rest))
      bound := by
  have hstop : ¬ (mem i ≠ backslash ∧ mem i ≠ 0) := by
    rintro ⟨hb, hz⟩
    rw [h] at hb hz
    exact hend.elim hb hz
  unfold infoResult
  by_cases hlong : infoSize ≤ value.length
  · rw [if_pos (.inr hlong)]
    refine infoStops_inr ?_ hlook
    unfold infoRound
    dsimp only
    rw [if_neg hstop, if_neg (Nat.not_lt.mpr hlong)]
  · have hshort : value.length < infoSize := Nat.lt_of_not_le hlong
    rw [if_neg (by omega)]
    by_cases hkey : key = pkey
    · rw [if_pos hkey]
      refine infoStops_inr ?_ hlook
      unfold infoRound
      dsimp only
      rw [if_neg hstop, if_pos hshort, if_pos hkey]
    · rw [if_neg hkey]
      exact hother hshort hkey

private theorem valueScan_nil (h : mem i = 0) : ValueScan mem key i [] := by
  intro pkey value touched hk hv hbound
  have hlook : max touched (i + 1) ≤ i + 0 + 1 := Nat.max_le.mpr ⟨hbound, Nat.le_refl _⟩
  rw [behind_nil]
  refine infoStops_value h (.inr rfl) hk hlook fun hshort hkey ↦ ?_
  refine infoStops_inr ?_ hlook
  simp [infoRound, h, hshort, hkey, infoResult]

private theorem keyScan_cons (h : mem i = c) (hnul : c ≠ 0) (hc : c ≠ backslash)
    (hrest : KeyScan mem key (i + 1) s) : KeyScan mem key i (c :: s) := by
  intro pkey value touched hk hbound
  rw [List.length_cons] at hbound ⊢
  rw [behind_cons hc]
  by_cases hroom : pkey.length < infoSize
  · have hround : infoRound mem key ⟨.key, i, pkey, value, touched⟩ =
        .inl ⟨.key, i + 1, pkey ++ [c], value, max touched (i + 1)⟩ := by
      simp [infoRound, InfoState.look, h, hnul, hc, hroom]
    have hstops := hrest (pkey ++ [c]) value (max touched (i + 1))
      (by rw [List.length_append, List.length_singleton]; omega) (by omega)
    refine infoStops_inl hround ?_
    rwa [Nat.add_right_comm i 1, Nat.add_assoc i] at hstops
  · obtain ⟨p, rest, hp, hlen⟩ := behind_head (pkey ++ [c]) s
    rw [List.length_append, List.length_singleton] at hlen
    have hresult : infoResult key (p :: rest) = .error .overwrite :=
      infoResult_long_key (by omega)
    rw [hp, hresult]
    refine infoStops_inr ?_ (Nat.max_le.mpr ⟨hbound, by change i + 1 ≤ _; omega⟩)
    simp [infoRound, h, hnul, hc, hroom]

private theorem valueScan_cons (h : mem i = c) (hnul : c ≠ 0) (hc : c ≠ backslash)
    (hrest : ValueScan mem key (i + 1) s) : ValueScan mem key i (c :: s) := by
  intro pkey value touched hk hv hbound
  rw [List.length_cons] at hbound ⊢
  rw [behind_cons hc]
  by_cases hroom : value.length < infoSize
  · have hround : infoRound mem key ⟨.value, i, pkey, value, touched⟩ =
        .inl ⟨.value, i + 1, pkey, value ++ [c], max touched (i + 1)⟩ := by
      simp [infoRound, InfoState.look, h, hnul, hc, hroom]
    have hstops := hrest pkey (value ++ [c]) (max touched (i + 1)) hk
      (by rw [List.length_append, List.length_singleton]; omega) (by omega)
    refine infoStops_inl hround ?_
    rwa [Nat.add_right_comm i 1, Nat.add_assoc i] at hstops
  · obtain ⟨p, rest, hp, hlen⟩ := behind_head (value ++ [c]) s
    rw [List.length_append, List.length_singleton] at hlen
    have hresult : infoResult key (pkey :: p :: rest) = .error .overwrite := by
      unfold infoResult
      rw [if_pos (.inr (by omega))]
    rw [hp, hresult]
    refine infoStops_inr ?_ (Nat.max_le.mpr ⟨hbound, by change i + 1 ≤ _; omega⟩)
    simp [infoRound, h, hnul, hc, hroom]

private theorem keyScan_backslash (h : mem i = backslash)
    (hrest : ValueScan mem key (i + 1) s) : KeyScan mem key i (backslash :: s) := by
  intro pkey value touched hk hbound
  rw [List.length_cons] at hbound ⊢
  rw [behind_backslash]
  by_cases hroom : pkey.length < infoSize
  · have hround : infoRound mem key ⟨.key, i, pkey, value, touched⟩ =
        .inl ⟨.value, i + 1, pkey, [], max touched (i + 1)⟩ := by
      simp [infoRound, InfoState.look, h, hroom]
    have hstops := hrest pkey [] (max touched (i + 1)) hroom (Nat.zero_le _) (by omega)
    refine infoStops_inl hround ?_
    rwa [Nat.add_right_comm i 1, Nat.add_assoc i] at hstops
  · obtain ⟨p, rest, hp, _⟩ := behind_head [] s
    have hresult : infoResult key (pkey :: p :: rest) = .error .overwrite := by
      unfold infoResult
      rw [if_pos (.inl (by omega))]
    rw [hp, hresult]
    refine infoStops_inr ?_ (Nat.max_le.mpr ⟨hbound, by change i + 1 ≤ _; omega⟩)
    simp [infoRound, h, hroom]

private theorem valueScan_backslash (h : mem i = backslash)
    (hrest : KeyScan mem key (i + 1) s) : ValueScan mem key i (backslash :: s) := by
  intro pkey value touched hk hv hbound
  have hnul : backslash ≠ 0 := by decide
  have hlook : max touched (i + 1) ≤ i + (s.length + 1) + 1 :=
    Nat.max_le.mpr ⟨hbound, by omega⟩
  rw [List.length_cons] at hbound ⊢
  rw [behind_backslash]
  refine infoStops_value h (.inl rfl) hk hlook fun hshort hkey ↦ ?_
  have hround : infoRound mem key ⟨.value, i, pkey, value, touched⟩ =
      .inl ⟨.key, i + 1, [], value, max touched (i + 1)⟩ := by
    simp [infoRound, InfoState.look, h, hshort, hkey, hnul]
  have hstops := hrest [] value (max touched (i + 1)) (Nat.zero_le _) (by omega)
  refine infoStops_inl hround ?_
  rwa [Nat.add_right_comm i 1, Nat.add_assoc i] at hstops

-- Both loops, by induction on what is left of the string.
private theorem scan_stops (key : List UInt8) (hmem : StringAt mem i s) (hs : (0 : UInt8) ∉ s) :
    KeyScan mem key i s ∧ ValueScan mem key i s := by
  induction s generalizing i with
  | nil => exact ⟨keyScan_nil hmem, valueScan_nil hmem⟩
  | cons c s ih =>
    obtain ⟨hbyte, hrest⟩ := hmem
    obtain ⟨hkeys, hvalues⟩ := ih hrest fun hm ↦ hs (List.mem_cons_of_mem c hm)
    have hnul : c ≠ 0 := fun he ↦ hs (he ▸ List.mem_cons_self)
    by_cases hc : c = backslash
    · subst hc
      exact ⟨keyScan_backslash hbyte hvalues, valueScan_backslash hbyte hkeys⟩
    · exact ⟨keyScan_cons hbyte hnul hc hkeys, valueScan_cons hbyte hnul hc hvalues⟩

end Scan

/-- Wherever the string stands in memory, the scan stops with what `infoValueForKey` says, and
has looked at the string and its terminator at most. -/
theorem infoScan_stops {mem : Nat → UInt8} (key : List UInt8) {s : List UInt8}
    (hmem : StringAt mem 0 s) (hs : (0 : UInt8) ∉ s) :
    InfoStops mem key (infoStart mem) (infoValueForKey s key) (s.length + 1) := by
  rw [infoValueForKey_pieces, ← behind_empty]
  cases s with
  | nil =>
    have hstart : infoStart mem = ⟨.key, 0, [], [], 1⟩ := by
      have hnul : mem 0 = 0 := hmem
      simp [infoStart, hnul, backslash]
    have hstops := (scan_stops key hmem hs).1 [] [] 1 (Nat.zero_le _) (Nat.le_refl _)
    rw [hstart]
    exact hstops
  | cons c s =>
    by_cases hc : c = backslash
    · have hbody : infoBody (c :: s) = s := by simp [infoBody, hc]
      have hstart : infoStart mem = ⟨.key, 1, [], [], 1⟩ := by
        simp [infoStart, hmem.1, hc]
      have hstops := (scan_stops key hmem.2 fun hm ↦ hs (List.mem_cons_of_mem c hm)).1
        [] [] 1 (Nat.zero_le _) (by omega)
      rw [hbody, hstart, List.length_cons, Nat.add_comm s.length 1]
      exact hstops
    · have hbody : infoBody (c :: s) = c :: s := by simp [infoBody, hc]
      have hstart : infoStart mem = ⟨.key, 0, [], [], 1⟩ := by
        simp [infoStart, hmem.1, hc]
      have hstops := (scan_stops key hmem hs).1 [] [] 1 (Nat.zero_le _) (by omega)
      rw [Nat.zero_add] at hstops
      rw [hbody, hstart]
      exact hstops

end Q2Admin
