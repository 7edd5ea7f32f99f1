import Q2Admin.Msg.Buffer

/-!
# Userinfo strings

Library `Q2Admin.Model`. Source `util.c:71–108`. A userinfo string is a sequence of
keys and values, each introduced by a backslash. `infoValueForKey` is the scan of the
source; `infoLookup` is what it is for, the first pair with the key among the pieces
between backslashes.
-/

namespace Q2Admin

/-- `sizeof(pkey)`, and the size of each `value` buffer; `util.c:73–74`. -/
def infoSize : Nat := 512

/-- The separator of keys and values. -/
def backslash : UInt8 := 0x5c

/-- The characters before the next backslash. -/
def token (s : List UInt8) : List UInt8 := s.takeWhile fun b ↦ b ≠ backslash

/-- The string from the next backslash on. -/
def afterToken (s : List UInt8) : List UInt8 := s.dropWhile fun b ↦ b ≠ backslash

/-- The loop of `Info_ValueForKey`; `util.c:82–107`. It passes over a backslash in every
round, so it ends within as many rounds as the string has characters. -/
def infoLoop (key : List UInt8) : Nat → List UInt8 → Except Fault (List UInt8)
  | 0, _ => .ok []
  | fuel + 1, s =>
    let pkey := token s
    match afterToken s with
    | [] => if infoSize < pkey.length then .error .overwrite else .ok []
    | _ :: s =>
      if infoSize ≤ pkey.length then .error .overwrite
      else
        let value := token s
        if infoSize ≤ value.length then .error .overwrite
        else if key = pkey then .ok value
        else
          match afterToken s with
          | [] => .ok []
          | _ :: s => infoLoop key fuel s

/-- The string without the backslash it may start with. -/
def infoBody (s : List UInt8) : List UInt8 :=
  if s.head? = some backslash then s.tail else s

/-- `Info_ValueForKey`; `util.c:71–108`. -/
def infoValueForKey (s key : List UInt8) : Except Fault (List UInt8) :=
  infoLoop key (s.length + 1) (infoBody s)

/-- Pieces between backslashes taken in pairs; a last key without value is no pair. -/
def infoPairs : List (List UInt8) → List (List UInt8 × List UInt8)
  | key :: value :: rest => (key, value) :: infoPairs rest
  | _ => []

/-- The value of the first pair with the key, empty when there is none. -/
def infoLookup (key s : List UInt8) : List UInt8 :=
  ((infoPairs ((infoBody s).splitOn backslash)).lookup key).getD []

private theorem token_cases (s : List UInt8) :
    (backslash ∉ s ∧ token s = s ∧ afterToken s = []) ∨
      ∃ rest, backslash ∉ token s ∧ afterToken s = backslash :: rest ∧
        s = token s ++ backslash :: rest := by
  induction s with
  | nil => exact .inl ⟨List.not_mem_nil, rfl, rfl⟩
  | cons b s ih =>
    by_cases hb : b = backslash
    · subst hb
      exact .inr ⟨s, List.not_mem_nil, rfl, rfl⟩
    · have ht : token (b :: s) = b :: token s := by simp [token, hb]
      have ha : afterToken (b :: s) = afterToken s := by simp [afterToken, hb]
      rcases ih with ⟨hs, hts, has⟩ | ⟨rest, hs, has, hrest⟩
      · left
        refine ⟨?_, by rw [ht, hts], by rw [ha, has]⟩
        simp only [List.mem_cons, not_or]
        exact ⟨Ne.symm hb, hs⟩
      · right
        refine ⟨rest, ?_, by rw [ha, has], by rw [ht, List.cons_append, ← hrest]⟩
        rw [ht]
        simp only [List.mem_cons, not_or]
        exact ⟨Ne.symm hb, hs⟩

/-- What the scan makes of the pieces between backslashes. -/
def infoResult (key : List UInt8) : List (List UInt8) → Except Fault (List UInt8)
  | [] => .ok []
  | [pkey] => if infoSize < pkey.length then .error .overwrite else .ok []
  | pkey :: value :: rest =>
    if infoSize ≤ pkey.length ∨ infoSize ≤ value.length then .error .overwrite
    else if key = pkey then .ok value
    else infoResult key rest

private theorem infoLoop_eq (key s : List UInt8) (fuel : Nat) (hfuel : s.length < fuel) :
    infoLoop key fuel s = infoResult key (s.splitOn backslash) := by
  induction fuel generalizing s with
  | zero => omega
  | succ fuel ih =>
    unfold infoLoop
    rcases token_cases s with ⟨hmem, ht, ha⟩ | ⟨t, hk, ha, hst⟩
    · rw [ha, List.splitOn_eq_singleton hmem]
      simp only [ht, infoResult]
    · have hlen := congrArg List.length hst
      rw [List.length_append, List.length_cons] at hlen
      have hsplit : s.splitOn backslash = token s :: t.splitOn backslash := by
        have h := List.splitOn_append_cons_self_of_not_mem hk t
        rwa [← hst] at h
      rw [ha, hsplit]
      by_cases hlong : infoSize ≤ (token s).length
      · obtain ⟨value, rest, hvalue⟩ :=
          List.exists_cons_of_ne_nil (List.splitOn_ne_nil backslash t)
        rw [hvalue]
        simp only [infoResult, hlong, true_or, ↓reduceIte]
      · simp only [hlong, ↓reduceIte]
        rcases token_cases t with ⟨hmem, ht, hat⟩ | ⟨u, hv, hau, htu⟩
        · rw [hat, List.splitOn_eq_singleton hmem]
          simp only [ht, infoResult, hlong, false_or]
        · have hlen' := congrArg List.length htu
          rw [List.length_append, List.length_cons] at hlen'
          have hsplit' : t.splitOn backslash = token t :: u.splitOn backslash := by
            have h := List.splitOn_append_cons_self_of_not_mem hv u
            rwa [← htu] at h
          rw [hau, hsplit']
          simp only [infoResult, hlong, false_or, ih u (by omega)]

private theorem infoBody_length (s : List UInt8) : (infoBody s).length ≤ s.length := by
  unfold infoBody
  split
  · rw [List.length_tail]
    omega
  · exact Nat.le_refl _

/-- The scan of a string is a scan of its pieces. -/
theorem infoValueForKey_pieces (s key : List UInt8) :
    infoValueForKey s key = infoResult key ((infoBody s).splitOn backslash) :=
  infoLoop_eq key (infoBody s) (s.length + 1) (Nat.lt_succ_of_le (infoBody_length s))

/-- The pairs that the scan copies: up to the first one with the key. -/
def scannedPairs (key : List UInt8) :
    List (List UInt8 × List UInt8) → List (List UInt8 × List UInt8)
  | [] => []
  | p :: pairs => if key = p.1 then [p] else p :: scannedPairs key pairs

/-- The last key, if no value stands behind it. -/
def danglingKey : List (List UInt8) → List UInt8
  | _ :: _ :: rest => danglingKey rest
  | [key] => key
  | [] => []

/-- Every key and value that the scan copies fits its buffer with a terminator; a key without
value, which gets none, fits without. -/
structure PiecesFit (key : List UInt8) (pieces : List (List UInt8)) : Prop where
  pairs : ∀ p ∈ scannedPairs key (infoPairs pieces), p.1.length < infoSize ∧ p.2.length < infoSize
  dangling : (∀ p ∈ infoPairs pieces, key ≠ p.1) → (danglingKey pieces).length ≤ infoSize

section PiecesFit

variable {key pkey value : List UInt8} {pieces rest : List (List UInt8)}

private theorem piecesFit_singleton : PiecesFit key [pkey] ↔ pkey.length ≤ infoSize :=
  ⟨fun h ↦ h.dangling nofun, fun h ↦ ⟨nofun, fun _ ↦ h⟩⟩

-- The pieces behind a pair are copied unless it has the key.
private theorem piecesFit_cons : PiecesFit key (pkey :: value :: rest) ↔
    (pkey.length < infoSize ∧ value.length < infoSize) ∧ (key ≠ pkey → PiecesFit key rest) := by
  by_cases hkey : key = pkey
  · have hscan : scannedPairs key (infoPairs (pkey :: value :: rest)) = [(pkey, value)] := by
      simp [infoPairs, scannedPairs, hkey]
    constructor
    · intro h
      have hpair := h.pairs (pkey, value) (by rw [hscan]; exact List.mem_singleton_self _)
      exact ⟨hpair, fun hne ↦ absurd hkey hne⟩
    · rintro ⟨hpair, _⟩
      refine ⟨fun p hp ↦ ?_, fun hnone ↦ absurd hkey (hnone (pkey, value) List.mem_cons_self)⟩
      rw [hscan] at hp
      rw [List.mem_singleton.mp hp]
      exact hpair
  · have hscan : scannedPairs key (infoPairs (pkey :: value :: rest)) =
        (pkey, value) :: scannedPairs key (infoPairs rest) := by
      simp [infoPairs, scannedPairs, hkey]
    constructor
    · intro h
      refine ⟨h.pairs (pkey, value) (by rw [hscan]; exact List.mem_cons_self), fun _ ↦ ⟨?_, ?_⟩⟩
      · intro p hp
        exact h.pairs p (by rw [hscan]; exact List.mem_cons_of_mem _ hp)
      · intro hnone
        refine h.dangling fun p hp ↦ ?_
        rcases List.mem_cons.mp hp with rfl | hp
        · exact hkey
        · exact hnone p hp
    · rintro ⟨hpair, hrest⟩
      have hrest := hrest hkey
      refine ⟨fun p hp ↦ ?_, fun hnone ↦ ?_⟩
      · rw [hscan] at hp
        rcases List.mem_cons.mp hp with rfl | hp
        · exact hpair
        · exact hrest.pairs p hp
      · exact hrest.dangling fun p hp ↦ hnone p (List.mem_cons_of_mem _ hp)

/-- Where the buffers suffice, the scan finds the value of the first pair with the key. -/
theorem infoResult_of_fit (key : List UInt8) :
    ∀ pieces, PiecesFit key pieces →
      infoResult key pieces = .ok (((infoPairs pieces).lookup key).getD [])
  | [], _ => rfl
  | [pkey], h => by
    have hlen := piecesFit_singleton.mp h
    unfold infoResult
    rw [if_neg (by omega)]
    rfl
  | pkey :: value :: rest, h => by
    obtain ⟨⟨hk, hv⟩, hrest⟩ := piecesFit_cons.mp h
    unfold infoResult
    rw [if_neg (by omega)]
    by_cases hkey : key = pkey
    · simp [infoPairs, hkey]
    · have hne : (key == pkey) = false := beq_false_of_ne hkey
      rw [if_neg hkey, infoResult_of_fit key rest (hrest hkey)]
      simp [infoPairs, List.lookup_cons, hne]

/-- Where they do not, it stores outside one of them. -/
theorem infoResult_of_not_fit (key : List UInt8) :
    ∀ pieces, ¬ PiecesFit key pieces → infoResult key pieces = .error .overwrite
  | [], h => absurd ⟨nofun, fun _ ↦ Nat.zero_le _⟩ h
  | [pkey], h => by
    have hlen := piecesFit_singleton.not.mp h
    unfold infoResult
    rw [if_pos (by omega)]
  | pkey :: value :: rest, h => by
    have hparts := piecesFit_cons.not.mp h
    unfold infoResult
    by_cases hpair : pkey.length < infoSize ∧ value.length < infoSize
    · have hkey : key ≠ pkey := fun he ↦ hparts ⟨hpair, fun hne ↦ absurd he hne⟩
      rw [if_neg (by omega), if_neg hkey]
      exact infoResult_of_not_fit key rest fun hrest ↦ hparts ⟨hpair, fun _ ↦ hrest⟩
    · rw [if_pos (by omega)]

/-- Pieces that are all shorter than the buffers fit. -/
theorem piecesFit_of_short (key : List UInt8) :
    ∀ pieces, (∀ p ∈ pieces, p.length < infoSize) → PiecesFit key pieces
  | [], _ => ⟨nofun, fun _ ↦ Nat.zero_le _⟩
  | [pkey], h => piecesFit_singleton.mpr (Nat.le_of_lt (h pkey List.mem_cons_self))
  | pkey :: value :: rest, h => by
    have hv := h value (List.mem_cons_of_mem _ List.mem_cons_self)
    refine piecesFit_cons.mpr ⟨⟨h pkey List.mem_cons_self, hv⟩, fun _ ↦ ?_⟩
    exact piecesFit_of_short key rest fun p hp ↦
      h p (List.mem_cons_of_mem _ (List.mem_cons_of_mem _ hp))

end PiecesFit

private theorem infix_of_mem_splitOn {s p : List UInt8} {b : UInt8} (h : p ∈ s.splitOn b) :
    p <:+: s := by
  obtain ⟨i, hi⟩ := List.mem_iff_getElem?.mp h
  have hmem : p ∈ (s.splitOn b).intersperse [b] :=
    List.mem_of_getElem? (List.getElem?_intersperse_two_mul.trans hi)
  have hinfix : p <:+: [b].intercalate (s.splitOn b) := List.infix_of_mem_flatten hmem
  rwa [List.intercalate_splitOn] at hinfix

/-- On strings that fit its buffers the scan returns the value of the first pair with the
key. -/
theorem infoValueForKey_eq (key : List UInt8) {s : List UInt8} (h : s.length < infoSize) :
    infoValueForKey s key = .ok (infoLookup key s) := by
  have hbody := infoBody_length s
  rw [infoValueForKey_pieces]
  apply infoResult_of_fit
  apply piecesFit_of_short
  intro p hp
  have hlen := (infix_of_mem_splitOn hp).length_le
  omega

private theorem infoResult_mem {key v : List UInt8} :
    ∀ pieces, infoResult key pieces = .ok v → v = [] ∨ v ∈ pieces
  | [], h => by
    cases h
    exact .inl rfl
  | [pkey], h => by
    unfold infoResult at h
    split at h
    · cases h
    · cases h
      exact .inl rfl
  | pkey :: value :: rest, h => by
    unfold infoResult at h
    split at h
    · cases h
    · split at h
      · cases h
        exact .inr (List.mem_cons_of_mem _ List.mem_cons_self)
      · exact (infoResult_mem rest h).imp_right fun hv ↦
          List.mem_cons_of_mem _ (List.mem_cons_of_mem _ hv)

/-- A value of a userinfo string is a stretch of it. -/
theorem infix_infoValueForKey {s key v : List UInt8} (h : infoValueForKey s key = .ok v) :
    v <:+: s := by
  have hbody : infoBody s <:+: s := by
    unfold infoBody
    split
    · exact (List.tail_suffix s).isInfix
    · exact List.infix_rfl
  rw [infoValueForKey_pieces] at h
  rcases infoResult_mem _ h with rfl | hv
  · exact List.nil_infix
  · exact (infix_of_mem_splitOn hv).trans hbody

example : infoValueForKey (ascii "\\skin\\male/grunt\\name\\Ann") (ascii "name") =
    .ok (ascii "Ann") := by decide

end Q2Admin
