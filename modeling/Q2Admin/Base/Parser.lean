import Q2Admin.Base.CString

/-!
# Parsers of byte formats

General library. A parser takes a value from the front of a list of bytes and leaves the
bytes behind it. `Parses x e a`: wherever the bytes `e` stand in front, the parser takes
exactly them, for the value `a`. Encodings of parts in sequence are concatenated, so the
format of a whole is parsed as its parts are, and codes that say where they end can be read in
one way only.
-/

namespace Q2Admin

/-- Parsers of values at the front of a list of bytes. -/
abbrev ByteParser := StateT (List UInt8) Option

namespace ByteParser

variable {α β : Type}

/-- In front of all other bytes, the parser takes the bytes `e` for the value `a`. -/
def Parses (x : ByteParser α) (e : List UInt8) (a : α) : Prop :=
  ∀ rest, x.run (e ++ rest) = some (a, rest)

/-- A result is parsed from no bytes. -/
theorem parses_pure (a : α) : Parses (pure a) [] a := fun _ ↦ rfl

/-- Parsers in sequence take the concatenation. -/
theorem parses_bind {x : ByteParser α} {f : α → ByteParser β} {e e' : List UInt8} {a : α} {b : β}
    (hx : Parses x e a) (hf : Parses (f a) e' b) : Parses (x >>= f) (e ++ e') b := by
  intro rest
  rw [StateT.run_bind, List.append_assoc, hx (e' ++ rest)]
  exact hf rest

/-- The value of the first parser is only repackaged. -/
theorem parses_map {x : ByteParser α} {e : List UInt8} {a : α} (g : α → β) (hx : Parses x e a) :
    Parses (x >>= fun a ↦ pure (g a)) e (g a) := by
  have h := parses_bind (f := fun a ↦ pure (g a)) hx (parses_pure (g a))
  rwa [List.append_nil] at h

/-- Bytes that are parsed with nothing behind them are all taken. -/
theorem Parses.run {x : ByteParser α} {e : List UInt8} {a : α} (h : Parses x e a) :
    x.run e = some (a, []) := by
  have hnil := h []
  rwa [List.append_nil] at hnil

/-- The next byte. -/
def byte : ByteParser UInt8 := fun bs ↦
  match bs with
  | [] => none
  | b :: rest => some (b, rest)

/-- A byte is parsed from itself. -/
theorem parses_byte (b : UInt8) : Parses byte [b] b := fun _ ↦ rfl

/-- The next `n` bytes. -/
def field (n : Nat) : ByteParser (Field n) := fun bs ↦
  if h : n ≤ bs.length then some (⟨bs.take n, List.length_take_of_le h⟩, bs.drop n) else none

/-- An array of fixed length is parsed from its bytes. -/
theorem parses_field {n : Nat} (f : Field n) : Parses (field n) f.bytes f := by
  intro rest
  have hle : n ≤ (f.bytes ++ rest).length := by
    rw [List.length_append, f.length_eq]
    exact Nat.le_add_right _ _
  have htake : (f.bytes ++ rest).take n = f.bytes := List.take_left' f.length_eq
  have hdrop : (f.bytes ++ rest).drop n = rest := List.drop_left' f.length_eq
  change field n (f.bytes ++ rest) = _
  simp only [field, hle, ↓reduceDIte, htake, hdrop]

/-- A string up to its terminator. -/
def string : ByteParser (List UInt8) := fun bs ↦
  match bs.dropWhile fun b ↦ b ≠ 0 with
  | [] => none
  | _ :: rest => some (cstr bs, rest)

/-- A string is parsed from its characters and a NUL. -/
theorem parses_string {s : List UInt8} (hs : (0 : UInt8) ∉ s) : Parses string (s ++ [0]) s := by
  intro rest
  have hcstr : cstr (s ++ 0 :: rest) = s := cstr_append_nul hs rest
  have hdrop : (s ++ 0 :: rest).dropWhile (fun b ↦ b ≠ 0) = 0 :: rest := by
    have hsplit := List.takeWhile_append_dropWhile (p := fun b : UInt8 ↦ b ≠ 0)
      (l := s ++ 0 :: rest)
    unfold cstr at hcstr
    rw [hcstr] at hsplit
    exact List.append_cancel_left hsplit
  rw [List.append_assoc]
  change string (s ++ 0 :: rest) = _
  unfold string
  rw [hdrop, hcstr]

/-- A value so many times in sequence. -/
def times (x : ByteParser α) : Nat → ByteParser (List α)
  | 0 => pure []
  | n + 1 => do
    let a ← x
    let rest ← times x n
    pure (a :: rest)

/-- The encodings of a list of values. -/
theorem parses_times {x : ByteParser α} {e : β → List UInt8} {v : β → α} {l : List β}
    (h : ∀ b ∈ l, Parses x (e b) (v b)) : Parses (times x l.length) (l.flatMap e) (l.map v) := by
  induction l with
  | nil => exact parses_pure []
  | cons b l ih =>
    rw [List.length_cons, List.flatMap_cons, List.map_cons]
    have hrest := ih fun c hc ↦ h c (List.mem_cons_of_mem b hc)
    exact parses_bind (h b List.mem_cons_self) (parses_map (v b :: ·) hrest)

end ByteParser

/-- A sequence of codes is read in one way only if each of them says where it ends. -/
theorem flatMap_codes_inj {α : Type} {e : α → List UInt8} {p : α → Prop} (hne : ∀ a, e a ≠ [])
    (hfront : ∀ a b rest rest', p a → p b → e a ++ rest = e b ++ rest' → a = b ∧ rest = rest')
    {l l' : List α} (hl : ∀ a ∈ l, p a) (hl' : ∀ a ∈ l', p a)
    (h : l.flatMap e = l'.flatMap e) : l = l' := by
  induction l generalizing l' with
  | nil =>
    cases l' with
    | nil => rfl
    | cons b l' => exact absurd (List.append_eq_nil_iff.mp h.symm).1 (hne b)
  | cons a l ih =>
    cases l' with
    | nil => exact absurd (List.append_eq_nil_iff.mp h).1 (hne a)
    | cons b l' =>
      obtain ⟨rfl, hrest⟩ := hfront a b _ _ (hl a List.mem_cons_self) (hl' b List.mem_cons_self) h
      rw [ih (fun c hc ↦ hl c (List.mem_cons_of_mem a hc))
        (fun c hc ↦ hl' c (List.mem_cons_of_mem a hc)) hrest]

end Q2Admin
