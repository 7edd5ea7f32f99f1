import Mathlib.Data.List.TakeWhile

/-!
# C strings and fixed-size byte arrays

General library. A byte array of a record is a `Field n`, a list that carries its
length; a `char *` names the bytes up to the first NUL of the memory behind it.
`strncpy` is the C function: it stops at a NUL of the source and pads with zeros,
and it leaves no terminator when the source fills the field.
-/

namespace Q2Admin

/-- The bytes of an ASCII literal. -/
def ascii (s : String) : List UInt8 := s.toList.map fun c ↦ c.toNat.toUInt8

/-- The decimal digits that `%d` prints for an unsigned value. -/
def decimal (n : Nat) : List UInt8 := (Nat.toDigits 10 n).map fun c ↦ c.toNat.toUInt8

/-- The string that starts at the head of `mem`: its bytes before the first NUL. -/
def cstr (mem : List UInt8) : List UInt8 := mem.takeWhile fun b ↦ b ≠ 0

/-- No NUL is part of a string. -/
theorem nul_notMem_cstr (mem : List UInt8) : (0 : UInt8) ∉ cstr mem := fun h ↦ by
  have hp := List.mem_takeWhile_imp h
  simp only [ne_eq, not_true_eq_false, decide_false, Bool.false_eq_true] at hp

/-- A string without a terminator goes on into the memory behind it. -/
theorem cstr_append {s : List UInt8} (hs : (0 : UInt8) ∉ s) (mem : List UInt8) :
    cstr (s ++ mem) = s ++ cstr mem := by
  induction s with
  | nil => rfl
  | cons b s ih =>
    have hb : b ≠ 0 := fun h ↦ hs (h ▸ List.mem_cons_self)
    have hrest := ih fun h ↦ hs (List.mem_cons_of_mem b h)
    unfold cstr at hrest ⊢
    rw [List.cons_append, List.takeWhile_cons_of_pos (by simpa using hb), hrest,
      List.cons_append]

/-- It ends at the first NUL behind it. -/
theorem cstr_append_nul {s : List UInt8} (hs : (0 : UInt8) ∉ s) (mem : List UInt8) :
    cstr (s ++ 0 :: mem) = s := by
  have hnul : cstr (0 :: mem) = [] := rfl
  rw [cstr_append hs, hnul, List.append_nil]

/-- A string without a NUL is all of its array's string. -/
theorem cstr_of_notMem {s : List UInt8} (hs : (0 : UInt8) ∉ s) : cstr s = s := by
  have h := cstr_append hs []
  have hnil : cstr [] = [] := rfl
  rwa [List.append_nil, hnil, List.append_nil] at h

/-- A string and what is behind its terminator can be told apart in one way. -/
theorem append_nul_inj {s s' rest rest' : List UInt8} (hs : (0 : UInt8) ∉ s)
    (hs' : (0 : UInt8) ∉ s') (h : s ++ 0 :: rest = s' ++ 0 :: rest') : s = s' ∧ rest = rest' := by
  have hsame : s = s' := by
    rw [← cstr_append_nul hs rest, h, cstr_append_nul hs']
  subst hsame
  exact ⟨rfl, (List.cons.inj (List.append_cancel_left h)).2⟩

private theorem digit_bounds {n : Nat} {d : Char} (h : d ∈ Nat.toDigits 10 n) :
    0x30 ≤ d.toNat ∧ d.toNat ≤ 0x39 := by
  have hdigit := Nat.isDigit_of_mem_toDigits (by decide) (by decide) h
  unfold Char.isDigit at hdigit
  rw [Bool.and_eq_true, decide_eq_true_eq, decide_eq_true_eq] at hdigit
  exact ⟨UInt32.le_iff_toNat_le.mp hdigit.1, UInt32.le_iff_toNat_le.mp hdigit.2⟩

/-- What `%d` prints are digits. -/
theorem digit_of_mem_decimal {n : Nat} {b : UInt8} (h : b ∈ decimal n) :
    0x30 ≤ b.toNat ∧ b.toNat ≤ 0x39 := by
  obtain ⟨d, hd, rfl⟩ := List.mem_map.mp h
  have hbounds := digit_bounds hd
  have hbyte : d.toNat.toUInt8.toNat = d.toNat % 256 := rfl
  omega

/-- Different values are printed differently. -/
theorem decimal_injective {m n : Nat} (h : decimal m = decimal n) : m = n := by
  have hdigits (n : Nat) : (decimal n).map (fun b ↦ Char.ofNat b.toNat) = Nat.toDigits 10 n := by
    unfold decimal
    rw [List.map_map]
    refine (List.map_congr_left fun d hd ↦ ?_).trans (List.map_id _)
    have hbounds := digit_bounds hd
    have hbyte : d.toNat.toUInt8.toNat = d.toNat % 256 := rfl
    change Char.ofNat d.toNat.toUInt8.toNat = d
    rw [hbyte, Nat.mod_eq_of_lt (by omega), Char.ofNat_toNat]
  have hsame : Nat.toDigits 10 m = Nat.toDigits 10 n := by rw [← hdigits m, h, hdigits n]
  calc
    m = Nat.ofDigitChars 10 (Nat.toDigits 10 m) 0 := Nat.ofDigitChars_ten_toDigits.symm
    _ = Nat.ofDigitChars 10 (Nat.toDigits 10 n) 0 := by rw [hsame]
    _ = n := Nat.ofDigitChars_ten_toDigits

/-- A text falls apart at the last separator in one way. -/
theorem append_separator_inj {a a' b b' : List UInt8} {sep : UInt8} (hb : sep ∉ b) (hb' : sep ∉ b')
    (h : a ++ sep :: b = a' ++ sep :: b') : a = a' ∧ b = b' := by
  rcases List.append_eq_append_iff.mp h with ⟨c, rfl, hc⟩ | ⟨c, rfl, hc⟩
  · cases c with
    | nil => exact ⟨(List.append_nil a).symm, (List.cons.inj hc).2⟩
    | cons x c =>
      have hrest : b = c ++ sep :: b' := (List.cons.inj hc).2
      exact absurd (hrest ▸ List.mem_append_right c List.mem_cons_self) hb
  · cases c with
    | nil => exact ⟨List.append_nil a', (List.cons.inj hc).2.symm⟩
    | cons x c =>
      have hrest : b' = c ++ sep :: b := (List.cons.inj hc).2
      exact absurd (hrest ▸ List.mem_append_right c List.mem_cons_self) hb'

/-- A byte array of fixed size. -/
structure Field (n : Nat) where
  bytes : List UInt8
  length_eq : bytes.length = n
  deriving DecidableEq

namespace Field

variable {n : Nat}

/-- Arrays with the same bytes are the same. -/
@[ext] theorem ext {f g : Field n} (h : f.bytes = g.bytes) : f = g := by
  cases f
  cases g
  cases h
  rfl

/-- The array that `memset` leaves. -/
def zero (n : Nat) : Field n := ⟨List.replicate n 0, List.length_replicate⟩

end Field

/-- `strncpy(dest, src, n)`, where `src` is the memory at the source pointer. -/
def strncpy (n : Nat) (src : List UInt8) : Field n :=
  ⟨(cstr src ++ List.replicate n 0).take n, by simp⟩

/-- The array holds a terminator. -/
def Field.Terminated {n : Nat} (f : Field n) : Prop := (0 : UInt8) ∈ f.bytes

instance {n : Nat} (f : Field n) : Decidable f.Terminated := inferInstanceAs (Decidable (_ ∈ _))

/-- `strncpy` leaves a terminator exactly when the string is shorter than the array. -/
theorem terminated_strncpy_iff (n : Nat) (src : List UInt8) :
    (strncpy n src).Terminated ↔ (cstr src).length < n := by
  unfold Field.Terminated strncpy
  dsimp only
  rw [List.take_append, List.mem_append, List.take_replicate, List.mem_replicate]
  constructor
  · rintro (h | h)
    · exact absurd (List.mem_of_mem_take h) (nul_notMem_cstr src)
    · omega
  · intro h
    exact .inr ⟨by omega, rfl⟩

/-- A string that is shorter than the array is found in it, whatever lies behind. -/
theorem cstr_strncpy {n : Nat} {s : List UInt8} (hs : (0 : UInt8) ∉ s) (hn : s.length < n)
    (mem : List UInt8) : cstr ((strncpy n s).bytes ++ mem) = s := by
  obtain ⟨k, rfl⟩ := Nat.exists_eq_add_of_lt hn
  have hpad : (strncpy (s.length + k + 1) s).bytes = s ++ 0 :: List.replicate k 0 := by
    simp only [strncpy, cstr_of_notMem hs, Nat.add_assoc, List.take_length_add_append]
    rw [List.take_replicate, ← List.replicate_succ]
    congr 2
    omega
  rw [hpad, List.append_assoc, List.cons_append, cstr_append_nul hs]

/-- A longer one is cut off without a terminator. -/
theorem cstr_strncpy_of_le {n : Nat} {s : List UInt8} (hs : (0 : UInt8) ∉ s) (hn : n ≤ s.length)
    (mem : List UInt8) : cstr ((strncpy n s).bytes ++ mem) = s.take n ++ cstr mem := by
  have hcut : (strncpy n s).bytes = s.take n := by
    simp only [strncpy, cstr_of_notMem hs]
    rw [List.take_append_of_le_length hn]
  rw [hcut, cstr_append fun h ↦ hs (List.mem_of_mem_take h)]

/-- What is found of a string that has been copied is not longer. -/
theorem cstr_strncpy_length_le (n : Nat) (s : List UInt8) :
    (cstr (strncpy n s).bytes).length ≤ s.length := by
  have hcopy : strncpy n s = strncpy n (cstr s) := by
    apply Field.ext
    unfold strncpy
    dsimp only
    rw [cstr_of_notMem (nul_notMem_cstr s)]
  have hlen : (cstr s).length ≤ s.length := (List.takeWhile_prefix _).length_le
  rw [hcopy, ← List.append_nil (strncpy n (cstr s)).bytes]
  by_cases hn : (cstr s).length < n
  · rwa [cstr_strncpy (nul_notMem_cstr s) hn]
  · rw [cstr_strncpy_of_le (nul_notMem_cstr s) (Nat.le_of_not_lt hn), List.length_append,
      List.length_take]
    change min n (cstr s).length + 0 ≤ _
    omega

/-- An array of zero bytes holds a terminated string. -/
theorem terminated_zero {n : Nat} (h : 0 < n) : (Field.zero n).Terminated :=
  List.mem_replicate.mpr ⟨Nat.ne_of_gt h, rfl⟩

private theorem pad_eq_self (s : List UInt8) :
    (cstr s ++ List.replicate s.length 0).take s.length = s ↔
      ∀ i j : Nat, i < j → s[i]? = some 0 → ∀ b ∈ s[j]?, b = 0 := by
  induction s with
  | nil => simp [cstr]
  | cons a s ih =>
    by_cases ha : a = 0
    · subst ha
      have hc : cstr (0 :: s) = [] := rfl
      rw [hc, List.nil_append, List.take_replicate, Nat.min_self]
      constructor
      · intro h i j _ _ b hb
        rw [← h] at hb
        exact (List.mem_replicate.mp (List.mem_of_getElem? hb)).2
      · intro h
        refine (List.eq_replicate_iff.mpr ⟨rfl, ?_⟩).symm
        intro b hb
        obtain ⟨k, hk⟩ := List.mem_iff_getElem?.mp hb
        cases k with
        | zero => simpa using hk.symm
        | succ k => exact h 0 (k + 1) (Nat.succ_pos k) rfl b hk
    · have hc : cstr (a :: s) = a :: cstr s := by simp [cstr, ha]
      have hl : (cstr s ++ List.replicate (s.length + 1) 0).take s.length =
          (cstr s ++ List.replicate s.length 0).take s.length := by
        simp only [List.take_append, List.take_replicate]
        congr 2
        omega
      rw [hc, List.cons_append, List.length_cons, List.take_succ_cons, hl, List.cons.injEq]
      simp only [true_and]
      rw [ih]
      constructor
      · intro h i j hij hi b hb
        cases i with
        | zero => exact absurd (Option.some.inj hi) ha
        | succ i =>
          cases j with
          | zero => omega
          | succ j => exact h i j (by omega) hi b hb
      · intro h i j hij hi b hb
        exact h (i + 1) (j + 1) (by omega) hi b hb

/-- Copying an array onto itself with `strncpy` keeps it exactly when no zero byte of it
is followed by a nonzero one. -/
theorem strncpy_eq_self_iff {n : Nat} (f : Field n) :
    strncpy n f.bytes = f ↔
      ∀ i j : Nat, i < j → f.bytes[i]? = some 0 → ∀ b ∈ f.bytes[j]?, b = 0 := by
  rw [← pad_eq_self, Field.ext_iff]
  simp only [strncpy, f.length_eq]

end Q2Admin
