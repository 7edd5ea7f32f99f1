import Q2Admin.Model.InfoScan
import Q2Admin.Msg.Bounded
import Q2Admin.Msg.RoundTrip

/-!
# Looking up userinfo

Library `Q2Admin.Msg`. Source `util.c:71–108` and `msg.c:48–66`. On the encoding of a list of pairs
`Info_ValueForKey` returns the value of the first one with the key. On a string from a message,
whose pieces may be longer than `pkey` and `value`, it may store outside these; it always ends, and
reads nothing behind the string.
-/

namespace Q2Admin

open Exec

/-- A key or a value of an encoding. -/
structure InfoText where
  chars : List UInt8
  no_backslash : backslash ∉ chars
  no_nul : (0 : UInt8) ∉ chars
  short : chars.length < infoSize

/-- A backslash in front of every key and every value. -/
def infoEncode (pairs : List (InfoText × InfoText)) : List UInt8 :=
  pairs.flatMap fun p ↦ backslash :: p.1.chars ++ backslash :: p.2.chars

/-- The value of the first pair with the key, and the empty string if there is none. -/
def firstValue (key : List UInt8) (pairs : List (InfoText × InfoText)) : List UInt8 :=
  ((pairs.find? fun p ↦ key = p.1.chars).map fun p ↦ p.2.chars).getD []

/-- The call returns the string, wherever its argument stands. -/
def InfoReturns (s key v : List UInt8) : Prop :=
  ∀ mem, StringAt mem 0 s → ∃ touched, Stops (infoRound mem key) (infoStart mem) ⟨.ok v, touched⟩

section Encode

variable {key : List UInt8} {pairs : List (InfoText × InfoText)} {p : InfoText × InfoText}

private def infoFields (pairs : List (InfoText × InfoText)) : List (List UInt8) :=
  pairs.flatMap fun p ↦ [p.1.chars, p.2.chars]

private theorem infoEncode_cons (p : InfoText × InfoText) (pairs : List (InfoText × InfoText)) :
    infoEncode (p :: pairs) =
      backslash :: (p.1.chars ++ backslash :: (p.2.chars ++ infoEncode pairs)) := by
  unfold infoEncode
  rw [List.flatMap_cons, List.cons_append, List.cons_append, List.append_assoc, List.cons_append]

private theorem infoEncode_tail (p : InfoText × InfoText) (pairs : List (InfoText × InfoText)) :
    (infoEncode (p :: pairs)).tail =
      p.1.chars ++ backslash :: (p.2.chars ++ infoEncode pairs) := by
  rw [infoEncode_cons, List.tail_cons]

private theorem nul_notMem_infoEncode (pairs : List (InfoText × InfoText)) :
    (0 : UInt8) ∉ infoEncode pairs := by
  have hsep : (0 : UInt8) ≠ backslash := by decide
  intro h
  obtain ⟨p, _, hp⟩ := List.mem_flatMap.mp h
  rcases List.mem_append.mp hp with hp | hp
  · rcases List.mem_cons.mp hp with hp | hp
    · exact hsep hp
    · exact p.1.no_nul hp
  · rcases List.mem_cons.mp hp with hp | hp
    · exact hsep hp
    · exact p.2.no_nul hp

private theorem splitOn_infoEncode (p : InfoText × InfoText)
    (pairs : List (InfoText × InfoText)) :
    (infoEncode (p :: pairs)).tail.splitOn backslash = infoFields (p :: pairs) := by
  induction pairs generalizing p with
  | nil =>
    have hnone : infoEncode [] = [] := rfl
    rw [infoEncode_tail, List.splitOn_append_cons_self_of_not_mem p.1.no_backslash, hnone,
      List.append_nil, List.splitOn_eq_singleton p.2.no_backslash]
    rfl
  | cons q pairs ih =>
    have hrest := ih q
    rw [infoEncode_tail, List.splitOn_append_cons_self_of_not_mem p.1.no_backslash]
    rw [infoEncode_tail] at hrest
    rw [infoEncode_cons, List.splitOn_append_cons_self_of_not_mem p.2.no_backslash, hrest]
    rfl

private theorem infoPairs_fields (pairs : List (InfoText × InfoText)) :
    infoPairs (infoFields pairs) = pairs.map fun p ↦ (p.1.chars, p.2.chars) := by
  induction pairs with
  | nil => rfl
  | cons p pairs ih =>
    rw [List.map_cons, ← ih]
    rfl

private theorem lookup_fields (key : List UInt8) (pairs : List (InfoText × InfoText)) :
    ((infoPairs (infoFields pairs)).lookup key).getD [] = firstValue key pairs := by
  rw [infoPairs_fields]
  unfold firstValue
  induction pairs with
  | nil => rfl
  | cons p pairs ih =>
    by_cases hkey : key = p.1.chars
    · simp [hkey]
    · have hne : (key == p.1.chars) = false := beq_false_of_ne hkey
      rw [List.map_cons, List.lookup_cons, hne, List.find?_cons_of_neg (by simpa using hkey)]
      exact ih

private theorem infoResult_fields (key : List UInt8) (pairs : List (InfoText × InfoText)) :
    infoResult key (infoFields pairs) = .ok (firstValue key pairs) := by
  rw [infoResult_of_fit, lookup_fields]
  apply piecesFit_of_short
  intro piece hpiece
  obtain ⟨p, _, hp⟩ := List.mem_flatMap.mp hpiece
  rcases List.mem_cons.mp hp with rfl | hp
  · exact p.1.short
  · rw [List.mem_singleton.mp hp]
    exact p.2.short

private theorem infoReturns_of_eq {s v : List UInt8} (hs : (0 : UInt8) ∉ s)
    (h : infoValueForKey s key = .ok v) : InfoReturns s key v := by
  intro mem hmem
  obtain ⟨touched, hstops, _⟩ := infoScan_stops key hmem hs
  rw [h] at hstops
  exact ⟨_, hstops⟩

private theorem infoReturns_encode (key : List UInt8) (pairs : List (InfoText × InfoText)) :
    InfoReturns (infoEncode pairs) key (firstValue key pairs) := by
  apply infoReturns_of_eq (nul_notMem_infoEncode pairs)
  rw [infoValueForKey_pieces]
  cases pairs with
  | nil => rfl
  | cons p pairs =>
    have hbody : infoBody (infoEncode (p :: pairs)) = (infoEncode (p :: pairs)).tail := by
      unfold infoBody
      rw [if_pos (by rw [infoEncode_cons, List.head?_cons])]
    rw [hbody, splitOn_infoEncode, infoResult_fields]

private theorem infoReturns_tail (key : List UInt8) (pairs : List (InfoText × InfoText))
    (hfirst : p.1.chars ≠ []) :
    InfoReturns (infoEncode (p :: pairs)).tail key (firstValue key (p :: pairs)) := by
  apply infoReturns_of_eq fun h ↦ nul_notMem_infoEncode (p :: pairs) (List.mem_of_mem_tail h)
  rw [infoValueForKey_pieces]
  have hbody : infoBody (infoEncode (p :: pairs)).tail = (infoEncode (p :: pairs)).tail := by
    rw [infoEncode_tail]
    unfold infoBody
    cases hchars : p.1.chars with
    | nil => exact absurd hchars hfirst
    | cons c rest =>
      have hc : c ≠ backslash := fun he ↦ p.1.no_backslash (by rw [hchars, he]; simp)
      rw [if_neg (by simpa using hc)]
  rw [hbody, splitOn_infoEncode, infoResult_fields]

/-- On the encoding of pairs `Info_ValueForKey` returns the value of the first one with the key,
also without the backslash in front if the first key has a character. -/
theorem infoValueForKey_encode (key : List UInt8) (pairs : List (InfoText × InfoText)) :
    InfoReturns (infoEncode pairs) key (firstValue key pairs) ∧
      ((∃ p ∈ pairs.head?, p.1.chars ≠ []) →
        InfoReturns (infoEncode pairs).tail key (firstValue key pairs)) := by
  refine ⟨infoReturns_encode key pairs, ?_⟩
  rintro ⟨p, hp, hfirst⟩
  obtain ⟨rest, rfl⟩ := List.head?_eq_some_iff.mp hp
  exact infoReturns_tail key rest hfirst

end Encode

/-- `MSG_ReadString` returns the string from some buffer. -/
def Delivered (s : List UInt8) : Prop := ∃ m m', msgReadString.run m = .ok s m'

/-- The call returns. It has then stored nothing outside `pkey` and `value`, and it has looked at
nothing behind the terminator of its argument. -/
def InfoSafe (s key : List UInt8) : Prop :=
  ∀ mem, StringAt mem 0 s → ∃ v touched,
    Stops (infoRound mem key) (infoStart mem) ⟨.ok v, touched⟩ ∧ touched ≤ s.length + 1

/-- A string delivered by a message is NUL-free. -/
theorem Delivered.no_nul {s : List UInt8} (h : Delivered s) : (0 : UInt8) ∉ s := by
  obtain ⟨m, m', hrun⟩ := h
  obtain ⟨_, ⟨t, _, rfl, rfl⟩, _, _⟩ := (decodes_string _ _ _).mp hrun
  exact nul_notMem_shown t.wire

/-- Seven-bit strings of up to 1023 characters are delivered. -/
theorem PlainString.delivered (s : PlainString) : Delivered s.chars := by
  have hroom : (s.chars ++ [0]).length ≤ msgSpace := by
    have hshort := s.short
    have hsize : maxStringChars = 1024 := rfl
    have hspace : msgSpace = 65540 := rfl
    rw [List.length_append, List.length_singleton]
    omega
  have hstands : Stands (.received (s.chars ++ [0])) s.text.wire := by
    rw [s.text_wire]
    exact stands_of_drop hroom (List.append_nil _).symm
  have hrun := reads_string s.text_fits _ hstands
  rw [s.text_value] at hrun
  exact ⟨_, _, hrun⟩

private theorem stringAt_append (pre s : List UInt8) :
    StringAt (fun i ↦ (pre ++ s).getD i 0) pre.length s := by
  induction s generalizing pre with
  | nil =>
    change (pre ++ []).getD pre.length 0 = 0
    simp
  | cons c s ih =>
    have hrest := ih (pre ++ [c])
    rw [List.length_append, List.length_singleton] at hrest
    refine ⟨?_, ?_⟩
    · simp
    · simpa using hrest

/-- `Info_ValueForKey` is safe on a string exactly if every key and value up to the first pair
with the key has at most 511 characters and, in case there is no such pair, a last key without
value has at most 512. -/
theorem infoSafe_iff {s : List UInt8} (hs : (0 : UInt8) ∉ s) (key : List UInt8) :
    InfoSafe s key ↔ PiecesFit key ((infoBody s).splitOn backslash) := by
  constructor
  · intro hsafe
    by_contra hlong
    have hmem := stringAt_append [] s
    obtain ⟨v, touched, hstops, _⟩ := hsafe _ hmem
    obtain ⟨touched', hfault, _⟩ := infoScan_stops key hmem hs
    rw [infoValueForKey_pieces, infoResult_of_not_fit key _ hlong] at hfault
    cases hstops.unique hfault
  · intro hfit mem hmem
    obtain ⟨touched, hstops, hle⟩ := infoScan_stops key hmem hs
    rw [infoValueForKey_pieces, infoResult_of_fit key _ hfit] at hstops
    exact ⟨_, touched, hstops, hle⟩

/-- A lookup that is safe. -/
theorem infoSafe_sample :
    InfoSafe (ascii "\\name\\Ann") (ascii "name") ↔
      PiecesFit (ascii "name") ((infoBody (ascii "\\name\\Ann")).splitOn backslash) :=
  infoSafe_iff (by decide) _

private def letters (n : Nat) (hpos : 0 < n) (hshort : n < maxStringChars) : PlainString where
  chars := List.replicate n 0x61
  nonempty h := by
    have hlen := congrArg List.length h
    rw [List.length_replicate, List.length_nil] at hlen
    omega
  short := by rwa [List.length_replicate]
  plain b hb := by
    rw [(List.mem_replicate.mp hb).2]
    decide

/-- A userinfo string of 513 characters without a backslash overruns `pkey`. -/
theorem long_userinfo_overruns : ¬ ∀ s key, Delivered s → InfoSafe s key := by
  intro hall
  obtain ⟨s, hs⟩ : ∃ s, s = letters 513 (by decide) (by decide) := ⟨_, rfl⟩
  have hlen : s.chars.length = 513 := by
    rw [hs]
    exact List.length_replicate
  have hfree : backslash ∉ s.chars := by
    rw [hs]
    intro hmem
    exact absurd (List.mem_replicate.mp hmem).2 (by decide)
  have hbody : infoBody s.chars = s.chars := by
    unfold infoBody
    rw [if_neg]
    intro hhead
    exact hfree (List.mem_of_mem_head? hhead)
  have hresult : infoValueForKey s.chars (ascii "name") = .error .overwrite := by
    rw [infoValueForKey_pieces, hbody, List.splitOn_eq_singleton hfree]
    unfold infoResult
    rw [if_pos (by rw [hlen]; decide)]
  have hmem := stringAt_append [] s.chars
  obtain ⟨v, touched, hstops, _⟩ := hall s.chars (ascii "name") s.delivered _ hmem
  obtain ⟨touched', hfault, _⟩ := infoScan_stops (ascii "name") hmem s.delivered.no_nul
  rw [hresult] at hfault
  cases hstops.unique hfault

end Q2Admin
