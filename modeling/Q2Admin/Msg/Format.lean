import Q2Admin.Msg.Buffer

/-!
# What the readers and writers consume and produce

Library `Q2Admin.Msg`. `Decodes x L`: the returning runs of the reader `x` are those
from a cursor at an encoding of a value, and they end behind it; `L` relates encodings to
values. `Takes v x e`: at the bytes `e` no outcome of the program, faults included, has
fetched a byte behind them from the buffer that `v` selects. `Writes x e`: the writer `x`
appends `e` where there is room; one that `Fills` faults where there is none. All compose along
`>>=`.
-/

namespace Q2Admin

open Exec

variable {σ α β : Type}

namespace MsgBuffer

/-- A cursor that moves by nothing stays. -/
theorem advance_zero (m : MsgBuffer) : m.advance 0 = m := rfl

/-- Moving the cursor leaves the contents. -/
theorem advance_data (m : MsgBuffer) (k : Nat) : (m.advance k).data = m.data := by
  unfold advance
  split <;> rfl

/-- Moving the cursor leaves the length. -/
theorem advance_length (m : MsgBuffer) (k : Nat) : (m.advance k).length = m.length := by
  unfold advance
  split <;> rfl

/-- The cursor moves by as many bytes. -/
theorem advance_index (m : MsgBuffer) (k : Nat) : (m.advance k).index = m.index + k := by
  unfold advance
  split
  · next h => rw [h, Nat.add_zero]
  · rfl

/-- Moving the cursor touches no byte behind its new place. -/
theorem advance_touched_le (m : MsgBuffer) (k : Nat) :
    (m.advance k).touched ≤ max m.touched (m.index + k) := by
  unfold advance
  split
  · exact Nat.le_max_left _ _
  · exact Nat.le_refl _

/-- Passing over two stretches of bytes is passing over both at once. -/
theorem advance_advance (m : MsgBuffer) (j k : Nat) :
    (m.advance j).advance k = m.advance (j + k) := by
  by_cases hj : j = 0
  · rw [hj, advance_zero, Nat.zero_add]
  · by_cases hk : k = 0
    · rw [hk, advance_zero, Nat.add_zero]
    · have hjk : j + k ≠ 0 := by omega
      simp only [advance, hj, hk, hjk, ↓reduceIte]
      congr 1
      · omega
      · omega

/-- Fetching ahead leaves no trace behind a cursor that passes over the same bytes. -/
theorem advance_touch {m : MsgBuffer} {j k : Nat} (hk : k ≠ 0) (hj : j ≤ m.index + k) :
    MsgBuffer.advance { m with touched := max m.touched j } k = m.advance k := by
  unfold advance
  rw [if_neg hk, if_neg hk]
  congr 1
  change max (max m.touched j) (m.index + k) = max m.touched (m.index + k)
  omega

/-- The byte at the cursor is the head of what is left. -/
theorem byteAt_of_drop {m : MsgBuffer} {i : Nat} {b : UInt8} {post : List UInt8}
    (h : m.data.drop i = b :: post) : i < m.data.length ∧ m.byteAt i = b := by
  have hi : i < m.data.length := by
    by_contra hn
    rw [List.drop_of_length_le (by omega)] at h
    exact List.cons_ne_nil b post h.symm
  refine ⟨hi, ?_⟩
  rw [← List.getElem_cons_drop hi] at h
  rw [byteAt, List.getD_eq_getElem?_getD, List.getElem?_eq_getElem hi, Option.getD_some]
  exact (List.cons.inj h).1

/-- There is nothing in no bytes. -/
theorem slice_zero (m : MsgBuffer) : (m.slice 0).bytes = [] := rfl

/-- The bytes at the cursor are the first one and those behind it. -/
theorem slice_succ (m : MsgBuffer) (n : Nat) :
    (m.slice (n + 1)).bytes = m.byteAt m.index :: ((m.advance 1).slice n).bytes := by
  simp only [slice, List.range_succ_eq_map, List.map_cons, List.map_map, Nat.add_zero]
  congr 1
  apply List.map_congr_left
  intro k _
  simp only [Function.comp_apply, byteAt, advance_data, advance_index]
  congr 1
  omega

/-- A slice splits at every length. -/
theorem slice_add (m : MsgBuffer) (j k : Nat) :
    (m.slice (j + k)).bytes = (m.slice j).bytes ++ ((m.advance j).slice k).bytes := by
  induction j generalizing m with
  | zero => rw [Nat.zero_add, slice_zero, List.nil_append, advance_zero]
  | succ j ih =>
    rw [Nat.add_right_comm, slice_succ, ih, slice_succ, List.cons_append, advance_advance,
      Nat.add_comm 1 j]

/-- The slice at the cursor is the stretch of bytes that stands there. -/
theorem slice_of_drop {m : MsgBuffer} {e post : List UInt8}
    (h : m.data.drop m.index = e ++ post) : (m.slice e.length).bytes = e := by
  induction e generalizing m with
  | nil => rfl
  | cons b e ih =>
    obtain ⟨_, hb⟩ := byteAt_of_drop h
    have ht : (m.advance 1).data.drop (m.advance 1).index = e ++ post := by
      rw [advance_data, advance_index, ← List.drop_drop, h]
      rfl
    rw [List.length_cons, slice_succ, hb, ih ht]

/-- A slice that ends within the bytes of the buffer is cut from them. -/
theorem drop_of_slice {m : MsgBuffer} {n : Nat} (h : m.index + n ≤ m.data.length) :
    m.data.drop m.index = (m.slice n).bytes ++ m.data.drop (m.index + n) := by
  induction n generalizing m with
  | zero => rfl
  | succ n ih =>
    have hi : m.index < m.data.length := by omega
    have hb : m.data[m.index] = m.byteAt m.index := by
      rw [byteAt, List.getD_eq_getElem?_getD, List.getElem?_eq_getElem hi, Option.getD_some]
    have ht := ih (m := m.advance 1) (by rw [advance_data, advance_index]; omega)
    rw [advance_data, advance_index, Nat.add_assoc, Nat.add_comm 1 n] at ht
    rw [← List.getElem_cons_drop hi, hb, slice_succ, List.cons_append, ht]

end MsgBuffer

/-- The bytes `e` stand at the cursor, inside the object. -/
def Stands (m : MsgBuffer) (e : List UInt8) : Prop :=
  (m.slice e.length).bytes = e ∧ (e = [] ∨ m.index + e.length ≤ msgSpace)

/-- The empty encoding stands everywhere. -/
theorem stands_nil (m : MsgBuffer) : Stands m [] := ⟨rfl, .inl rfl⟩

/-- Bytes stand at the cursor when their parts stand one behind the other. -/
theorem stands_append {m : MsgBuffer} {e e' : List UInt8} :
    Stands m (e ++ e') ↔ Stands m e ∧ Stands (m.advance e.length) e' := by
  unfold Stands
  rw [List.length_append, m.slice_add, m.advance_index]
  constructor
  · rintro ⟨hs, hb⟩
    obtain ⟨h1, h2⟩ := List.append_inj hs (m.slice e.length).length_eq
    refine ⟨⟨h1, ?_⟩, h2, ?_⟩
    · rcases hb with hb | hb
      · exact .inl (List.append_eq_nil_iff.mp hb).1
      · exact .inr (by omega)
    · rcases hb with hb | hb
      · exact .inl (List.append_eq_nil_iff.mp hb).2
      · exact .inr (by omega)
  · rintro ⟨⟨h1, hb1⟩, h2, hb2⟩
    refine ⟨by rw [h1, h2], ?_⟩
    rcases hb2 with hb2 | hb2
    · subst hb2
      rcases hb1 with hb1 | hb1
      · exact .inl (by rw [hb1, List.append_nil])
      · exact .inr (by simpa using hb1)
    · exact .inr (by omega)

/-- A byte stands at the cursor if it is there and within the array. -/
theorem stands_singleton {m : MsgBuffer} {b : UInt8} :
    Stands m [b] ↔ m.index < msgSpace ∧ m.byteAt m.index = b := by
  unfold Stands
  rw [List.length_singleton, m.slice_succ, MsgBuffer.slice_zero]
  simp only [List.cons.injEq, and_true, reduceCtorEq, false_or]
  exact and_comm

/-- An encoding stands at the cursor piece by piece. -/
theorem stands_cons {m : MsgBuffer} {b : UInt8} {e : List UInt8} :
    Stands m (b :: e) ↔ Stands m [b] ∧ Stands (m.advance 1) e :=
  stands_append (e := [b])

/-- A prefix of the bytes from the cursor on stands there. -/
theorem stands_of_drop {m : MsgBuffer} {e post : List UInt8} (hl : m.data.length ≤ msgSpace)
    (h : m.data.drop m.index = e ++ post) : Stands m e := by
  refine ⟨MsgBuffer.slice_of_drop h, ?_⟩
  have hlen := congrArg List.length h
  rw [List.length_drop, List.length_append] at hlen
  by_cases he : e = []
  · exact .inl he
  · have hpos := List.length_pos_iff.mpr he
    exact .inr (by omega)

/-! ### Readers -/

variable {L : List UInt8 → α → Prop}

/-- At the bytes `e`, the reader returns `a` and passes over them. -/
def Reads (x : BufM α) (e : List UInt8) (a : α) : Prop :=
  ∀ m, Stands m e → x.run m = .ok a (m.advance e.length)

/-- The reader returns exactly at the encodings of `L`, with the value encoded. -/
def Decodes (x : BufM α) (L : List UInt8 → α → Prop) : Prop :=
  ∀ m a m', x.run m = .ok a m' ↔ ∃ e, L e a ∧ Stands m e ∧ m' = m.advance e.length

/-- At the bytes `e`, every outcome of a program on a state with a buffer in it has fetched
at most these. -/
def Takes (v : σ → MsgBuffer) (x : EStateM Fault σ α) (e : List UInt8) : Prop :=
  ∀ s, Stands (v s) e →
    match x.run s with
    | .ok _ s' => v s' = (v s).advance e.length
    | .error _ s' => (v s').touched ≤ max (v s).touched ((v s).index + e.length)

/-- A decoder reads what its language says. -/
theorem Decodes.reads {x : BufM α} (h : Decodes x L) {e : List UInt8} {a : α} (he : L e a) :
    Reads x e a := fun m hm ↦ (h m a _).mpr ⟨e, he, hm, rfl⟩

/-- What is read from an encoding takes its bytes. -/
theorem Reads.takes {x : BufM α} {e : List UInt8} {a : α} (h : Reads x e a) : Takes id x e := by
  intro m hm
  rw [h m hm]
  rfl

/-- A result is decoded from no bytes. -/
theorem decodes_pure (a : α) : Decodes (pure a) (fun e b ↦ e = [] ∧ b = a) := by
  intro m b m'
  constructor
  · intro h
    cases h
    exact ⟨[], ⟨rfl, rfl⟩, stands_nil m, rfl⟩
  · rintro ⟨_, ⟨rfl, rfl⟩, _, rfl⟩
    rfl

/-- Readers in sequence decode concatenations. -/
theorem decodes_bind {x : BufM α} {f : α → BufM β} {K : α → List UInt8 → β → Prop}
    (hx : Decodes x L) (hf : ∀ a, Decodes (f a) (K a)) :
    Decodes (x >>= f) (fun e b ↦ ∃ e₁ e₂ a, e = e₁ ++ e₂ ∧ L e₁ a ∧ K a e₂ b) := by
  intro m b m''
  constructor
  · intro h
    obtain ⟨a, m', hxa, hfb⟩ := run_bind_ok h
    obtain ⟨e₁, hL, hs₁, rfl⟩ := (hx m a m').mp hxa
    obtain ⟨e₂, hK, hs₂, rfl⟩ := (hf a _ b m'').mp hfb
    refine ⟨e₁ ++ e₂, ⟨e₁, e₂, a, rfl, hL, hK⟩, stands_append.mpr ⟨hs₁, hs₂⟩, ?_⟩
    rw [m.advance_advance, List.length_append]
  · rintro ⟨_, ⟨e₁, e₂, a, rfl, hL, hK⟩, hs, rfl⟩
    obtain ⟨hs₁, hs₂⟩ := stands_append.mp hs
    rw [run_bind_of_ok (hx.reads hL m hs₁), (hf a).reads hK _ hs₂, m.advance_advance,
      List.length_append]

/-- A decoder accepts every description of the same language. -/
theorem decodes_congr {x : BufM α} {K : List UInt8 → α → Prop} (h : Decodes x L)
    (hLK : ∀ e a, L e a ↔ K e a) : Decodes x K := by
  intro m a m'
  rw [h m a m']
  simp only [hLK]

/-- A reader whose result is only repackaged. -/
theorem decodes_map {x : BufM α} (g : α → β) (hx : Decodes x L) :
    Decodes (x >>= fun a ↦ pure (g a)) (fun e b ↦ ∃ a, L e a ∧ b = g a) := by
  apply decodes_congr (decodes_bind hx fun a ↦ decodes_pure (g a))
  intro e b
  constructor
  · rintro ⟨e₁, _, a, rfl, hL, rfl, hb⟩
    exact ⟨a, by rwa [List.append_nil], hb⟩
  · rintro ⟨a, hL, hb⟩
    exact ⟨e, [], a, (List.append_nil e).symm, hL, rfl, hb⟩

/-- Readers in sequence pass over the concatenation. -/
theorem reads_bind {x : BufM α} {f : α → BufM β} {e e' : List UInt8} {a : α} {b : β}
    (hx : Reads x e a) (hf : Reads (f a) e' b) : Reads (x >>= f) (e ++ e') b := by
  intro m hm
  obtain ⟨h, h'⟩ := stands_append.mp hm
  rw [run_bind_of_ok (hx m h), hf _ h', m.advance_advance, List.length_append]

/-- The result of the first reader only selects the result of the second. -/
theorem reads_map {x : BufM α} {e : List UInt8} {a : α} (g : α → β) (hx : Reads x e a) :
    Reads (x >>= fun a ↦ pure (g a)) e (g a) := by
  have h := reads_bind (f := fun a ↦ pure (g a)) hx ((decodes_pure (g a)).reads ⟨rfl, rfl⟩)
  rwa [List.append_nil] at h

/-- A first part that may fault, and a second one for whatever it returned. -/
theorem takes_bind {v : σ → MsgBuffer} {x : EStateM Fault σ α} {f : α → EStateM Fault σ β}
    {e e' : List UInt8} (hx : Takes v x e)
    (hf : ∀ s a s', x.run s = .ok a s' → Stands (v s) e → Takes v (f a) e') :
    Takes v (x >>= f) (e ++ e') := by
  intro s hs
  obtain ⟨h, h'⟩ := stands_append.mp hs
  have hxs := hx s h
  rw [List.length_append]
  cases hr : x.run s with
  | ok a s' =>
    rw [hr] at hxs
    have hmid : v s' = (v s).advance e.length := hxs
    have hfs := hf s a s' hr h s' (by rw [hmid]; exact h')
    rw [run_bind_of_ok hr]
    cases hr' : (f a).run s' with
    | ok b s'' =>
      rw [hr'] at hfs
      have hend : v s'' = (v s').advance e'.length := hfs
      change v s'' = _
      rw [hend, hmid, (v s).advance_advance]
    | error er s'' =>
      rw [hr'] at hfs
      have hend : (v s'').touched ≤ max (v s').touched ((v s').index + e'.length) := hfs
      rw [hmid, (v s).advance_index] at hend
      have ha := (v s).advance_touched_le e.length
      change (v s'').touched ≤ _
      omega
  | error er s' =>
    rw [hr] at hxs
    have hend : (v s').touched ≤ max (v s).touched ((v s).index + e.length) := hxs
    rw [run_bind_of_error hr]
    change (v s').touched ≤ _
    omega

/-- A program that keeps the buffer takes nothing from it. -/
theorem takes_of_keeps {v : σ → MsgBuffer} {x : EStateM Fault σ α} (h : Keeps v x) :
    Takes v x [] := by
  intro s _
  have hs := h s
  cases hr : x.run s with
  | ok a s' => rwa [final_of_ok hr] at hs
  | error er s' =>
    rw [final_of_error hr] at hs
    change (v s').touched ≤ _
    rw [hs]
    exact Nat.le_max_left _ _

/-- Reading from the buffer of a larger state. -/
theorem takes_zoom {l : Lens σ MsgBuffer} {x : BufM α} {e : List UInt8} (h : Takes id x e) :
    Takes l.get (zoom l x) e := by
  intro s hs
  have hm := h (l.get s) hs
  rw [run_zoom]
  cases hr : x.run (l.get s) with
  | ok a m' =>
    rw [hr] at hm
    change l.get (l.set m' s) = _
    rw [l.get_set]
    exact hm
  | error er m' =>
    rw [hr] at hm
    change (l.get (l.set m' s)).touched ≤ _
    rw [l.get_set]
    exact hm

/-- Reading a known value from the buffer of a larger state, and going on with it. -/
theorem takes_zoom_bind {l : Lens σ MsgBuffer} {x : BufM α} {f : α → EStateM Fault σ β}
    {e e' : List UInt8} {a : α} (hx : Reads x e a) (hf : Takes l.get (f a) e') :
    Takes l.get (zoom l x >>= f) (e ++ e') := by
  apply takes_bind (takes_zoom hx.takes)
  intro s b s' hr hs
  rw [run_zoom_of_ok (hx (l.get s) hs)] at hr
  cases hr
  exact hf

/-! ### Fixed-width fields -/

/-- Fetching records the offset; inside the object it returns the byte there. -/
theorem msgFetch_run (i : Nat) (m : MsgBuffer) :
    (msgFetch i).run m =
      if i < msgSpace then .ok (m.byteAt i) { m with touched := max m.touched (i + 1) }
      else .error .overread { m with touched := max m.touched (i + 1) } := by
  unfold msgFetch
  by_cases h : i < msgSpace
  · simp only [h, ↓reduceIte]
    rfl
  · simp only [h, ↓reduceIte]
    rfl

/-- Reading a byte moves the cursor past it, unless it lies outside the object. -/
theorem msgReadByte_run (m : MsgBuffer) :
    msgReadByte.run m =
      if m.index < msgSpace then .ok (m.byteAt m.index) (m.advance 1)
      else .error .overread { m with touched := max m.touched (m.index + 1) } := by
  have hf := msgFetch_run m.index m
  unfold msgReadByte
  rw [run_bind_of_ok (EStateM.run_get m)]
  by_cases h : m.index < msgSpace
  · rw [if_pos h] at hf ⊢
    rw [run_bind_of_ok hf]
    rfl
  · rw [if_neg h] at hf ⊢
    rw [run_bind_of_error hf]

/-- `MSG_ReadByte` decodes one byte. -/
theorem decodes_byte : Decodes msgReadByte (fun e b ↦ e = [b]) := by
  intro m b m'
  rw [msgReadByte_run]
  constructor
  · intro h
    split at h
    · next hi =>
      cases h
      exact ⟨_, rfl, stands_singleton.mpr ⟨hi, rfl⟩, rfl⟩
    · cases h
  · rintro ⟨_, rfl, hs, rfl⟩
    obtain ⟨hi, hb⟩ := stands_singleton.mp hs
    rw [if_pos hi, hb]
    rfl

/-- A byte is read back. -/
theorem reads_byte (b : UInt8) : Reads msgReadByte [b] b := decodes_byte.reads rfl

/-- The wire form of a 16-bit value. -/
def shortBytes (s : UInt16) : List UInt8 := [(s &&& 0xff).toUInt8, (s >>> 8).toUInt8]

/-- The wire form of a 32-bit value. -/
def longBytes (l : UInt32) : List UInt8 :=
  [(l &&& 0xff).toUInt8, ((l >>> 8) &&& 0xff).toUInt8, ((l >>> 16) &&& 0xff).toUInt8,
    (l >>> 24).toUInt8]

private theorem and_ff (n : Nat) : n &&& 255 = n % 256 := Nat.and_two_pow_sub_one_eq_mod _ 8

/-- Shifting the bytes of a short apart loses nothing. -/
theorem short_recombine (s : UInt16) :
    (s &&& 0xff).toUInt8.toUInt16 + ((s >>> 8).toUInt8.toUInt16 <<< 8) = s := by
  apply UInt16.toNat_inj.mp
  have hs := s.toNat_lt
  simp [UInt16.toNat_add, UInt16.toNat_shiftLeft, UInt16.toNat_shiftRight, Nat.shiftLeft_eq,
    Nat.shiftRight_eq_div_pow, and_ff]
  omega

/-- Different values have different bytes. -/
theorem shortBytes_inj {s s' : UInt16} (h : shortBytes s = shortBytes s') : s = s' := by
  obtain ⟨hlow, hhigh, _⟩ : (s &&& 0xff).toUInt8 = (s' &&& 0xff).toUInt8 ∧
      (s >>> 8).toUInt8 = (s' >>> 8).toUInt8 ∧ True := by
    simpa [shortBytes] using h
  rw [← short_recombine s, hlow, hhigh, short_recombine s']

private theorem shortBytes_recombine (b0 b1 : UInt8) :
    shortBytes (b0.toUInt16 + (b1.toUInt16 <<< 8)) = [b0, b1] := by
  have h0 := b0.toNat_lt
  have h1 := b1.toNat_lt
  unfold shortBytes
  congr 2
  · apply UInt8.toNat_inj.mp
    simp [UInt16.toNat_shiftLeft, Nat.shiftLeft_eq, and_ff]
  · apply UInt8.toNat_inj.mp
    simp [UInt16.toNat_add, UInt16.toNat_shiftLeft, UInt16.toNat_shiftRight, Nat.shiftLeft_eq,
      Nat.shiftRight_eq_div_pow]
    omega

private theorem long_recombine (l : UInt32) :
    (l &&& 0xff).toUInt8.toUInt32 + (((l >>> 8) &&& 0xff).toUInt8.toUInt32 <<< 8) +
      (((l >>> 16) &&& 0xff).toUInt8.toUInt32 <<< 16) + ((l >>> 24).toUInt8.toUInt32 <<< 24) =
        l := by
  apply UInt32.toNat_inj.mp
  have hl := l.toNat_lt
  simp [UInt32.toNat_add, UInt32.toNat_shiftLeft, UInt32.toNat_shiftRight, Nat.shiftLeft_eq,
    Nat.shiftRight_eq_div_pow, and_ff]
  omega

private theorem longBytes_recombine (b0 b1 b2 b3 : UInt8) :
    longBytes (b0.toUInt32 + (b1.toUInt32 <<< 8) + (b2.toUInt32 <<< 16) +
      (b3.toUInt32 <<< 24)) = [b0, b1, b2, b3] := by
  have h0 := b0.toNat_lt
  have h1 := b1.toNat_lt
  have h2 := b2.toNat_lt
  have h3 := b3.toNat_lt
  have hsum : (b0.toUInt32 + (b1.toUInt32 <<< 8) + (b2.toUInt32 <<< 16) +
      (b3.toUInt32 <<< 24)).toNat =
      b0.toNat + b1.toNat * 256 + b2.toNat * 65536 + b3.toNat * 16777216 := by
    simp [UInt32.toNat_add, UInt32.toNat_shiftLeft, Nat.shiftLeft_eq]
    omega
  unfold longBytes
  generalize b0.toUInt32 + (b1.toUInt32 <<< 8) + (b2.toUInt32 <<< 16) + (b3.toUInt32 <<< 24) =
    l at hsum
  congr
  · apply UInt8.toNat_inj.mp
    simp [and_ff, hsum]
    omega
  · apply UInt8.toNat_inj.mp
    simp [UInt32.toNat_shiftRight, Nat.shiftRight_eq_div_pow, and_ff, hsum]
    omega
  · apply UInt8.toNat_inj.mp
    simp [UInt32.toNat_shiftRight, Nat.shiftRight_eq_div_pow, and_ff, hsum]
    omega
  · apply UInt8.toNat_inj.mp
    simp [UInt32.toNat_shiftRight, Nat.shiftRight_eq_div_pow, hsum]
    omega

/-- `MSG_ReadShort` decodes two bytes. -/
theorem decodes_short : Decodes msgReadShort (fun e s ↦ e = shortBytes s) := by
  refine decodes_congr (decodes_bind decodes_byte fun _ ↦ decodes_map _ decodes_byte)
    fun e s ↦ ?_
  constructor
  · rintro ⟨_, _, b0, rfl, rfl, b1, rfl, rfl⟩
    exact (shortBytes_recombine b0 b1).symm
  · rintro rfl
    exact ⟨_, _, _, rfl, rfl, _, rfl, (short_recombine s).symm⟩

/-- `MSG_ReadLong` decodes four bytes. -/
theorem decodes_long : Decodes msgReadLong (fun e l ↦ e = longBytes l) := by
  refine decodes_congr (decodes_bind decodes_byte fun _ ↦ decodes_bind decodes_byte fun _ ↦
    decodes_bind decodes_byte fun _ ↦ decodes_map _ decodes_byte) fun e l ↦ ?_
  constructor
  · rintro ⟨_, _, b0, rfl, rfl, _, _, b1, rfl, rfl, _, _, b2, rfl, rfl, b3, rfl, rfl⟩
    exact (longBytes_recombine b0 b1 b2 b3).symm
  · rintro rfl
    exact ⟨_, _, _, rfl, rfl, _, _, _, rfl, rfl, _, _, _, rfl, rfl, _, rfl,
      (long_recombine l).symm⟩

/-- A short is read back. -/
theorem reads_short (s : UInt16) : Reads msgReadShort (shortBytes s) s :=
  decodes_short.reads rfl

/-- A long is read back. -/
theorem reads_long (l : UInt32) : Reads msgReadLong (longBytes l) l := decodes_long.reads rfl

/-- `MSG_ReadData` decodes as many bytes as it is asked for. -/
theorem decodes_data (len : Nat) :
    Decodes (msgReadData len) (fun e (d : Field len) ↦ e = d.bytes) := by
  intro m d m'
  by_cases hz : len = 0
  · subst hz
    have hnil (f : Field 0) : f.bytes = [] := List.length_eq_zero_iff.mp f.length_eq
    constructor
    · intro h
      cases h
      exact ⟨[], (hnil _).symm, stands_nil m, rfl⟩
    · rintro ⟨_, rfl, _, rfl⟩
      have hd : d = m.slice 0 := Field.ext (by rw [hnil, hnil])
      rw [hnil, hd]
      rfl
  · unfold msgReadData
    rw [run_bind_of_ok (EStateM.run_get m)]
    simp only [ne_eq, hz, not_false_eq_true, ↓reduceIte]
    by_cases hs : msgSpace < m.index + len
    · simp only [hs, ↓reduceIte]
      constructor
      · intro h
        cases h
      · rintro ⟨_, rfl, ⟨_, hb⟩, _⟩
        rw [d.length_eq] at hb
        rcases hb with hb | hb
        · exact absurd (by rw [← d.length_eq, hb]; rfl) hz
        · omega
    · simp only [hs, ↓reduceIte]
      have hadv : m.advance len =
          { m with index := m.index + len, touched := max m.touched (m.index + len) } := by
        rw [MsgBuffer.advance, if_neg hz]
      constructor
      · intro h
        cases h
        refine ⟨_, rfl, ⟨?_, .inr ?_⟩, ?_⟩
        · rw [(m.slice len).length_eq]
        · rw [(m.slice len).length_eq]
          omega
        · rw [(m.slice len).length_eq, hadv]
      · rintro ⟨_, rfl, ⟨hd, _⟩, rfl⟩
        rw [d.length_eq] at hd ⊢
        rw [hadv, show d = m.slice len from Field.ext hd.symm]
        rfl

/-- A block of bytes is read back. -/
theorem reads_data (e : List UInt8) : Reads (msgReadData e.length) e ⟨e, rfl⟩ :=
  (decodes_data e.length).reads rfl

/-! ### Strings -/

/-- What the copy loop of `MSG_ReadString` keeps of the bytes it passes over. -/
def shown (l : List UInt8) : List UInt8 := (l.map fun b ↦ b &&& 0x7f).filter fun b ↦ b ≠ 0

/-- A byte that the mask clears is not shown. -/
theorem shown_cons_of_zero {b : UInt8} (h : b &&& 0x7f = 0) (l : List UInt8) :
    shown (b :: l) = shown l := by
  simp [shown, h]

/-- Any other byte is shown without its top bit. -/
theorem shown_cons_of_ne {b : UInt8} (h : b &&& 0x7f ≠ 0) (l : List UInt8) :
    shown (b :: l) = (b &&& 0x7f) :: shown l := by
  simp [shown, h]

/-- What is shown of bytes is a string. -/
theorem nul_notMem_shown (l : List UInt8) : (0 : UInt8) ∉ shown l := by
  intro h
  simpa using (List.mem_filter.mp h).2

/-- The wire form of a string as the reader finds it. The scan for the terminator starts
behind the first byte, which may therefore itself be NUL. -/
structure Text where
  first : UInt8
  rest : List UInt8
  nul_free : (0 : UInt8) ∉ rest

namespace Text

/-- The bytes up to and including the terminator. -/
def wire (t : Text) : List UInt8 := t.first :: (t.rest ++ [0])

/-- The string that `MSG_ReadString` returns for them. -/
def value (t : Text) : List UInt8 := shown t.wire

/-- A text takes its characters and a NUL on the wire. -/
theorem wire_length (t : Text) : t.wire.length = t.rest.length + 2 := by
  simp [wire]

/-- It is a string. -/
theorem nul_notMem_value (t : Text) : (0 : UInt8) ∉ t.value := nul_notMem_shown t.wire

/-- `MSG_ReadString` copies the string without overrunning `str[MAX_STRING_CHARS]`. -/
def Fits (t : Text) : Prop := t.value.length < maxStringChars

instance (t : Text) : Decidable t.Fits := inferInstanceAs (Decidable (_ < _))

end Text

private theorem msgScan_ok {index fuel len n : Nat} {m m' : MsgBuffer}
    (h : (msgScan index fuel len).run m = .ok n m') :
    ∃ s, (0 : UInt8) ∉ s ∧ n = len + s.length + 1 ∧
      Stands { m with index := index + (len + 1) } (s ++ [0]) ∧
      m' = { m with touched := max m.touched (index + len + s.length + 2) } := by
  induction fuel generalizing len m with
  | zero => cases h
  | succ fuel ih =>
    unfold msgScan at h
    obtain ⟨b, m₁, hf, hrest⟩ := run_bind_ok h
    rw [msgFetch_run] at hf
    split at hf
    · next hi =>
      cases hf
      by_cases hb : m.byteAt (index + (len + 1)) = 0
      · rw [if_neg (by simpa using hb)] at hrest
        cases hrest
        exact ⟨[], List.not_mem_nil, rfl, stands_singleton.mpr ⟨hi, hb⟩, rfl⟩
      · rw [if_pos (by simpa using hb)] at hrest
        obtain ⟨s, hs, rfl, hst, rfl⟩ := ih hrest
        refine ⟨m.byteAt (index + (len + 1)) :: s, ?_, ?_, ?_, ?_⟩
        · simp only [List.mem_cons, not_or]
          exact ⟨Ne.symm hb, hs⟩
        · rw [List.length_cons]
          omega
        · rw [List.cons_append, stands_cons]
          exact ⟨stands_singleton.mpr ⟨hi, rfl⟩, hst⟩
        · simp only [List.length_cons, MsgBuffer.mk.injEq, true_and]
          omega
    · cases hf

private theorem msgScan_run {index len : Nat} {s : List UInt8} (hs : (0 : UInt8) ∉ s)
    (fuel : Nat) (hfuel : s.length < fuel) {m : MsgBuffer}
    (h : Stands { m with index := index + (len + 1) } (s ++ [0])) :
    (msgScan index fuel len).run m = .ok (len + s.length + 1)
      { m with touched := max m.touched (index + len + s.length + 2) } := by
  induction s generalizing m fuel len with
  | nil =>
    obtain ⟨fuel, rfl⟩ := Nat.exists_eq_add_one_of_ne_zero (by omega : fuel ≠ 0)
    obtain ⟨hi, hb⟩ := stands_singleton.mp h
    have hf := msgFetch_run (index + (len + 1)) m
    rw [if_pos hi, show m.byteAt (index + (len + 1)) = 0 from hb] at hf
    rw [msgScan, run_bind_of_ok hf]
    rfl
  | cons b s ih =>
    obtain ⟨fuel, rfl⟩ := Nat.exists_eq_add_one_of_ne_zero (by omega : fuel ≠ 0)
    rw [List.cons_append, stands_cons] at h
    obtain ⟨hi, hb⟩ := stands_singleton.mp h.1
    have hb0 : b ≠ 0 := fun he ↦ hs (he ▸ List.mem_cons_self)
    have hf := msgFetch_run (index + (len + 1)) m
    rw [if_pos hi, show m.byteAt (index + (len + 1)) = b from hb] at hf
    rw [msgScan, run_bind_of_ok hf]
    simp only [ne_eq, hb0, not_false_eq_true, ↓reduceIte]
    rw [ih (m := { m with touched := max m.touched (index + (len + 1) + 1) })
      (fun hm ↦ hs (List.mem_cons_of_mem b hm)) fuel (by simpa using hfuel) h.2]
    simp only [List.length_cons, EStateM.Result.ok.injEq, MsgBuffer.mk.injEq, true_and]
    omega

private theorem decodes_append (n : Nat) {str : List UInt8} (hstr : str.length < maxStringChars) :
    Decodes (msgAppend n str) (fun e v ↦
      e.length = n ∧ v = str ++ shown e ∧ str.length + (shown e).length < maxStringChars) := by
  induction n generalizing str with
  | zero =>
    apply decodes_congr (decodes_pure str)
    intro e v
    constructor
    · rintro ⟨rfl, rfl⟩
      exact ⟨rfl, (List.append_nil v).symm, hstr⟩
    · rintro ⟨he, hv, _⟩
      have hnil := List.length_eq_zero_iff.mp he
      subst hnil
      exact ⟨rfl, by rw [hv]; exact List.append_nil str⟩
  | succ n ih =>
    unfold msgAppend
    have hbody (b : UInt8) : Decodes
        (if b &&& 0x7f = 0 then msgAppend n str
          else if maxStringChars ≤ str.length + 1 then throw Fault.overwrite
          else msgAppend n (str ++ [b &&& 0x7f]))
        (fun e v ↦ e.length = n ∧ v = str ++ shown (b :: e) ∧
          str.length + (shown (b :: e)).length < maxStringChars) := by
      by_cases hb : b &&& 0x7f = 0
      · rw [if_pos hb]
        apply decodes_congr (ih hstr)
        intro e v
        rw [shown_cons_of_zero hb]
      · rw [if_neg hb]
        by_cases hroom : maxStringChars ≤ str.length + 1
        · rw [if_pos hroom]
          intro m v m'
          constructor
          · intro h
            cases h
          · rintro ⟨e, ⟨_, _, hfit⟩, _⟩
            rw [shown_cons_of_ne hb, List.length_cons] at hfit
            omega
        · rw [if_neg hroom]
          have hlen : (str ++ [b &&& 0x7f]).length < maxStringChars := by
            rw [List.length_append, List.length_singleton]
            omega
          apply decodes_congr (ih hlen)
          intro e v
          rw [shown_cons_of_ne hb, List.append_assoc, List.length_append,
            List.length_singleton, List.length_cons, List.singleton_append, Nat.add_assoc,
            Nat.add_comm 1]
    apply decodes_congr (decodes_bind decodes_byte hbody)
    intro e v
    constructor
    · rintro ⟨_, e₂, b, rfl, rfl, he, hv, hfit⟩
      refine ⟨?_, hv, hfit⟩
      rw [List.length_append, he, List.length_singleton, Nat.add_comm]
    · rintro ⟨he, hv, hfit⟩
      cases e with
      | nil => cases he
      | cons b e => exact ⟨[b], e, b, rfl, rfl, Nat.succ.inj he, hv, hfit⟩

private theorem msgAppend_touched (n : Nat) (str : List UInt8) (m : MsgBuffer) :
    (final (msgAppend n str) m).touched ≤ max m.touched (m.index + n) := by
  induction n generalizing str m with
  | zero => exact Nat.le_max_left _ _
  | succ n ih =>
    unfold msgAppend
    have hrun := msgReadByte_run m
    split at hrun
    · rw [final_bind_of_ok hrun]
      have ha := m.advance_touched_le 1
      have hi := m.advance_index 1
      have hstep (str : List UInt8) :
          (final (msgAppend n str) (m.advance 1)).touched ≤ max m.touched (m.index + (n + 1)) := by
        have h := ih str (m.advance 1)
        omega
      by_cases hb : m.byteAt m.index &&& 0x7f = 0
      · simp only [hb, ↓reduceIte]
        exact hstep str
      · by_cases hroom : maxStringChars ≤ str.length + 1
        · simp only [hb, hroom, ↓reduceIte]
          change (m.advance 1).touched ≤ _
          omega
        · simp only [hb, hroom, ↓reduceIte]
          exact hstep _
    · rw [final_bind_of_error hrun]
      change max m.touched (m.index + 1) ≤ _
      omega

private theorem string_length (t : Text) : 0 + t.rest.length + 1 + 1 = t.wire.length := by
  rw [t.wire_length]
  omega

private theorem scan_text {m : MsgBuffer} {t : Text} (h : Stands m t.wire) :
    (msgScan m.index msgSpace 0).run m = .ok (0 + t.rest.length + 1)
      { m with touched := max m.touched (m.index + 0 + t.rest.length + 2) } := by
  rw [Text.wire, stands_cons] at h
  refine msgScan_run t.nul_free msgSpace ?_ h.2
  have hb := h.2.2
  rw [List.length_append, List.length_singleton] at hb
  rcases hb with hb | hb
  · simp at hb
  · omega

/-- `MSG_ReadString` returns the strings whose wire form stands at the cursor. -/
theorem decodes_string : Decodes msgReadString
    (fun e v ↦ ∃ t : Text, t.Fits ∧ e = t.wire ∧ v = t.value) := by
  intro m v m'
  have hzero : ([] : List UInt8).length < maxStringChars := by decide
  unfold msgReadString
  rw [run_bind_of_ok (EStateM.run_get m)]
  constructor
  · intro h
    obtain ⟨n, m₁, hscan, happ⟩ := run_bind_ok h
    obtain ⟨s, hs, rfl, hst, rfl⟩ := msgScan_ok hscan
    obtain ⟨e, ⟨he, rfl, hfit⟩, hse, rfl⟩ := (decodes_append _ hzero _ v m').mp happ
    -- The bytes copied are the first byte and the bytes scanned.
    have hwire : e = m.byteAt m.index :: (s ++ [0]) := by
      have h1 := hse.1
      have h2 := hst.1
      rw [he, MsgBuffer.slice_succ] at h1
      rw [List.length_append, List.length_singleton] at h2
      have h3 : (0 + s.length + 1) = s.length + 1 := by omega
      rw [h3] at h1
      rw [← h1, ← h2]
      congr 1
    have ht : (⟨m.byteAt m.index, s, hs⟩ : Text).wire = e := hwire.symm
    refine ⟨e, ⟨⟨m.byteAt m.index, s, hs⟩, ?_, ht.symm, ?_⟩, hse, ?_⟩
    · rw [Text.Fits, Text.value, ht]
      simpa using hfit
    · rw [Text.value, ht]
      rfl
    · exact MsgBuffer.advance_touch (by omega) (by omega)
  · rintro ⟨_, ⟨t, hfit, rfl, rfl⟩, hst, rfl⟩
    rw [run_bind_of_ok (scan_text hst)]
    refine (decodes_append _ hzero _ _ _).mpr ⟨t.wire, ⟨?_, rfl, ?_⟩, hst, ?_⟩
    · exact (string_length t).symm
    · simpa [Text.Fits, Text.value] using hfit
    · exact (MsgBuffer.advance_touch (by rw [t.wire_length]; omega)
        (by rw [t.wire_length]; omega)).symm

/-- A text that fits the buffer is read back as it is shown. -/
theorem reads_string {t : Text} (h : t.Fits) : Reads msgReadString t.wire t.value :=
  decodes_string.reads ⟨t, h, rfl, rfl⟩

/-- Whether or not the string fits, nothing behind its terminator is fetched. -/
theorem takes_string (t : Text) : Takes id msgReadString t.wire := by
  intro m hm
  change Stands m t.wire at hm
  unfold msgReadString
  rw [run_bind_of_ok (EStateM.run_get m), run_bind_of_ok (scan_text hm), string_length t]
  have hbound := msgAppend_touched t.wire.length []
    { m with touched := max m.touched (m.index + 0 + t.rest.length + 2) }
  have hlen := t.wire_length
  cases hr : (msgAppend t.wire.length []).run
      { m with touched := max m.touched (m.index + 0 + t.rest.length + 2) } with
  | ok v m' =>
    obtain ⟨e, ⟨he, _, _⟩, _, rfl⟩ := (decodes_append _ (by decide) _ v m').mp hr
    change MsgBuffer.advance _ e.length = m.advance t.wire.length
    rw [he]
    exact MsgBuffer.advance_touch (by omega) (by omega)
  | error er m' =>
    rw [final_of_error hr] at hbound
    change m'.touched ≤ max m.touched (m.index + t.wire.length)
    change m'.touched ≤ max (max m.touched _) (m.index + t.wire.length) at hbound
    omega

/-! ### Readers that cannot fail -/

/-- Where this many bytes of the object are ahead, the reader returns, and passes over no more. -/
def ReadsUpTo (k : Nat) (x : BufM α) : Prop :=
  ∀ m, m.index + k ≤ msgSpace → ∃ a m', x.run m = .ok a m' ∧ m'.index ≤ m.index + k

/-- A result passes over nothing. -/
theorem readsUpTo_pure {k : Nat} (a : α) : ReadsUpTo k (pure a) :=
  fun m _ ↦ ⟨a, m, rfl, Nat.le_add_right _ _⟩

/-- In sequence the bounds add up. -/
theorem readsUpTo_bind {k l : Nat} {x : BufM α} {f : α → BufM β} (hx : ReadsUpTo k x)
    (hf : ∀ a, ReadsUpTo l (f a)) : ReadsUpTo (k + l) (x >>= f) := by
  intro m hm
  obtain ⟨a, m₁, hrun, h₁⟩ := hx m (by omega)
  obtain ⟨b, m₂, hrest, h₂⟩ := hf a m₁ (by omega)
  exact ⟨b, m₂, (run_bind_of_ok hrun).trans hrest, by omega⟩

/-- A branch reads as much as its longer arm. -/
theorem readsUpTo_ite {k : Nat} {p : Prop} [Decidable p] {x y : BufM α} (hx : ReadsUpTo k x)
    (hy : ReadsUpTo k y) : ReadsUpTo k (if p then x else y) := by
  split
  · exact hx
  · exact hy

/-- A larger bound is a bound. -/
theorem ReadsUpTo.mono {k l : Nat} {x : BufM α} (h : ReadsUpTo k x) (hkl : k ≤ l) :
    ReadsUpTo l x := by
  intro m hm
  obtain ⟨a, m', hrun, hindex⟩ := h m (by omega)
  exact ⟨a, m', hrun, by omega⟩

/-- `MSG_ReadByte` passes over up to one byte. -/
theorem readsUpTo_byte : ReadsUpTo 1 msgReadByte := by
  intro m hm
  refine ⟨m.byteAt m.index, m.advance 1, ?_, (m.advance_index 1).le⟩
  rw [msgReadByte_run, if_pos (Nat.lt_of_succ_le hm)]

/-- `MSG_ReadShort` passes over up to two bytes. -/
theorem readsUpTo_short : ReadsUpTo 2 msgReadShort :=
  readsUpTo_bind (l := 1) readsUpTo_byte fun _ ↦
    readsUpTo_bind (l := 0) readsUpTo_byte fun _ ↦ readsUpTo_pure _

/-- `MSG_ReadLong` passes over up to four bytes. -/
theorem readsUpTo_long : ReadsUpTo 4 msgReadLong :=
  readsUpTo_bind (l := 3) readsUpTo_byte fun _ ↦ readsUpTo_bind (l := 2) readsUpTo_byte fun _ ↦
    readsUpTo_bind (l := 1) readsUpTo_byte fun _ ↦
      readsUpTo_bind (l := 0) readsUpTo_byte fun _ ↦ readsUpTo_pure _

/-- `MSG_ReadData` passes over up to as many bytes as it is asked for. -/
theorem readsUpTo_data (len : Nat) : ReadsUpTo len (msgReadData len) := by
  intro m hm
  have hslice : Stands m (m.slice len).bytes := by
    refine ⟨by rw [(m.slice len).length_eq], .inr ?_⟩
    rwa [(m.slice len).length_eq]
  refine ⟨m.slice len, m.advance len, ?_, (m.advance_index len).le⟩
  have hrun := (decodes_data len).reads rfl m hslice
  rwa [(m.slice len).length_eq] at hrun

/-! ### Writers -/

/-- On an output buffer with room for them, the writer appends the bytes `e`. -/
def Writes (x : BufM Unit) (e : List UInt8) : Prop :=
  ∀ bs, bs.length + e.length ≤ msgSize →
    x.run (MsgBuffer.ofBytes bs) = .ok () (MsgBuffer.ofBytes (bs ++ e))

/-- Writers in sequence append the concatenation. -/
theorem writes_bind {x y : BufM Unit} {e e' : List UInt8} (hx : Writes x e)
    (hy : Writes y e') : Writes (x >>= fun _ ↦ y) (e ++ e') := by
  intro bs h
  rw [List.length_append] at h
  rw [run_bind_of_ok (hx bs (by omega)), hy (bs ++ e) (by rw [List.length_append]; omega),
    List.append_assoc]

/-- Nothing is written by a result. -/
theorem writes_pure : Writes (pure ()) [] := by
  intro bs _
  rw [List.append_nil]
  rfl

-- A buffer between the stores of one writer and the update of its length.
private def pending (bs e : List UInt8) : MsgBuffer :=
  ⟨bs.length, (bs ++ e).length, bs ++ e, 0⟩

private theorem put_run {bs e : List UInt8} (b : UInt8) (h : (bs ++ e).length < msgSize) :
    (msgPut b).run (pending bs e) = .ok () (pending bs (e ++ [b])) := by
  have hs : storeAt (bs ++ e) (bs ++ e).length b = bs ++ (e ++ [b]) := by
    simp [storeAt]
  unfold msgPut
  rw [run_bind_of_ok (EStateM.run_get _)]
  simp only [pending, h, ↓reduceIte, hs]
  rw [EStateM.run_set]
  congr 2
  simp
  omega

private theorem grow_run (bs e : List UInt8) :
    (msgGrow e.length).run (pending bs e) = .ok () (MsgBuffer.ofBytes (bs ++ e)) := by
  simp only [msgGrow, EStateM.run_modify, pending, MsgBuffer.ofBytes, List.length_append]

private theorem pending_nil (bs : List UInt8) : pending bs [] = MsgBuffer.ofBytes bs := by
  simp [pending, MsgBuffer.ofBytes]

/-- `MSG_WriteByte` writes one byte. -/
theorem writes_byte (b : UInt8) : Writes (msgWriteByte b) [b] := by
  intro bs h
  have hb : (bs ++ []).length < msgSize := by
    simp at h ⊢
    omega
  unfold msgWriteByte
  rw [← pending_nil, run_bind_of_ok (put_run b hb)]
  exact grow_run _ _

/-- `MSG_WriteShort` writes the low byte first. -/
theorem writes_short (s : UInt16) : Writes (msgWriteShort s) (shortBytes s) := by
  intro bs h
  simp only [shortBytes, List.length_cons, List.length_nil] at h
  unfold msgWriteShort
  rw [← pending_nil, run_bind_of_ok (put_run _ (by simp; omega)),
    run_bind_of_ok (put_run _ (by simp; omega))]
  exact grow_run _ _

/-- `MSG_WriteLong` writes the lowest byte first. -/
theorem writes_long (l : UInt32) : Writes (msgWriteLong l) (longBytes l) := by
  intro bs h
  simp only [longBytes, List.length_cons, List.length_nil] at h
  unfold msgWriteLong
  rw [← pending_nil, run_bind_of_ok (put_run _ (by simp; omega)),
    run_bind_of_ok (put_run _ (by simp; omega)), run_bind_of_ok (put_run _ (by simp; omega)),
    run_bind_of_ok (put_run _ (by simp; omega))]
  exact grow_run _ _

/-- Writing the first bytes of an object appends them. -/
theorem writes_data (data : List UInt8) (length : Nat) (h : length ≤ data.length) :
    Writes (msgWriteData data length) (data.take length) := by
  induction data generalizing length with
  | nil =>
    have hz : length = 0 := by simpa using h
    subst hz
    exact writes_pure
  | cons b data ih =>
    cases length with
    | zero => exact writes_pure
    | succ length =>
      rw [List.take_succ_cons]
      exact writes_bind (writes_byte b) (ih length (by simpa using h))

/-- A string is written with its terminator. -/
theorem writes_string (str : List UInt8) :
    Writes (msgWriteString (some str)) (str ++ [0]) := by
  have h := writes_data (str ++ [0]) (str.length + 1) (by simp)
  rwa [List.take_of_length_le (by simp)] at h

/-- A whole array is written. -/
theorem writes_field {n : Nat} (f : Field n) : Writes (msgWriteData f.bytes n) f.bytes := by
  have h := writes_data f.bytes n f.length_eq.ge
  rwa [List.take_of_length_le f.length_eq.le] at h

/-- A loop of writers appends what they append, in the order of the list. -/
theorem writes_forM {l : List α} {f : α → BufM Unit} {e : α → List UInt8}
    (h : ∀ a ∈ l, Writes (f a) (e a)) : Writes (forM l f) (l.flatMap e) := by
  induction l with
  | nil => exact writes_pure
  | cons a l ih =>
    rw [List.forM_cons, List.flatMap_cons]
    exact writes_bind (h a List.mem_cons_self) (ih fun b hb ↦ h b (List.mem_cons_of_mem a hb))

/-- The writer appends the bytes `e` to an output buffer with room for them, and stores outside
the array of one without. -/
structure Fills (x : BufM Unit) (e : List UInt8) : Prop where
  writes : Writes x e
  overfills : ∀ bs, bs.length ≤ msgSize → msgSize < bs.length + e.length →
    ∃ m, x.run (MsgBuffer.ofBytes bs) = .error .overwrite m

/-- A result fills no byte. -/
theorem fills_pure : Fills (pure ()) [] := by
  refine ⟨writes_pure, fun bs hbs hlong ↦ ?_⟩
  rw [List.length_nil] at hlong
  omega

/-- Of two writers the one that gets to the end of the array stores outside. -/
theorem fills_bind {x y : BufM Unit} {e e' : List UInt8} (hx : Fills x e) (hy : Fills y e') :
    Fills (x >>= fun _ ↦ y) (e ++ e') := by
  refine ⟨writes_bind hx.writes hy.writes, fun bs hbs hlong ↦ ?_⟩
  rw [List.length_append] at hlong
  by_cases hfits : bs.length + e.length ≤ msgSize
  · rw [run_bind_of_ok (hx.writes bs hfits)]
    exact hy.overfills (bs ++ e) (by rwa [List.length_append])
      (by rw [List.length_append]; omega)
  · obtain ⟨m, hrun⟩ := hx.overfills bs hbs (by omega)
    exact ⟨m, run_bind_of_error hrun⟩

/-- `MSG_WriteByte` fills one byte. -/
theorem fills_byte (b : UInt8) : Fills (msgWriteByte b) [b] := by
  refine ⟨writes_byte b, fun bs hbs hlong ↦ ?_⟩
  rw [List.length_singleton] at hlong
  have hput : (msgPut b).run (MsgBuffer.ofBytes bs) = .error .overwrite (.ofBytes bs) := by
    have hfull : ¬ (MsgBuffer.ofBytes bs).index < msgSize := by
      change ¬ bs.length < msgSize
      omega
    unfold msgPut
    rw [run_bind_of_ok (EStateM.run_get _), if_neg hfull]
    rfl
  exact ⟨_, run_bind_of_error hput⟩

private theorem put_full {bs e : List UInt8} (b : UInt8) (h : msgSize ≤ (bs ++ e).length) :
    (msgPut b).run (pending bs e) = .error .overwrite (pending bs e) := by
  unfold msgPut
  rw [run_bind_of_ok (EStateM.run_get _),
    if_neg (show ¬ (pending bs e).index < msgSize from Nat.not_lt_of_le h)]
  rfl

/-- `MSG_WriteShort` fills two bytes. -/
theorem fills_short (s : UInt16) : Fills (msgWriteShort s) (shortBytes s) := by
  refine ⟨writes_short s, fun bs hbs hlong ↦ ?_⟩
  simp only [shortBytes, List.length_cons, List.length_nil] at hlong
  unfold msgWriteShort
  rw [← pending_nil]
  by_cases hfull : msgSize ≤ (bs ++ []).length
  · exact ⟨_, run_bind_of_error (put_full _ hfull)⟩
  · rw [run_bind_of_ok (put_run _ (Nat.lt_of_not_le hfull))]
    exact ⟨_, run_bind_of_error (put_full _ (by simp at hfull ⊢; omega))⟩

/-- `MSG_WriteData` fills as many bytes as it is told to. -/
theorem fills_data (data : List UInt8) (length : Nat) (h : length ≤ data.length) :
    Fills (msgWriteData data length) (data.take length) := by
  induction data generalizing length with
  | nil =>
    have hz : length = 0 := by simpa using h
    subst hz
    exact fills_pure
  | cons b data ih =>
    cases length with
    | zero => exact fills_pure
    | succ length =>
      rw [List.take_succ_cons]
      exact fills_bind (fills_byte b) (ih length (by simpa using h))

/-- `MSG_WriteString` fills the characters and a NUL. -/
theorem fills_string (str : List UInt8) : Fills (msgWriteString (some str)) (str ++ [0]) := by
  have h := fills_data (str ++ [0]) (str.length + 1) (by simp)
  rwa [List.take_of_length_le (by simp)] at h

/-- An array of fixed length fills its bytes. -/
theorem fills_field {n : Nat} (f : Field n) : Fills (msgWriteData f.bytes n) f.bytes := by
  have h := fills_data f.bytes n f.length_eq.ge
  rwa [List.take_of_length_le f.length_eq.le] at h

/-- A loop fills what its rounds fill. -/
theorem fills_forM {l : List α} {f : α → BufM Unit} {e : α → List UInt8}
    (h : ∀ a ∈ l, Fills (f a) (e a)) : Fills (forM l f) (l.flatMap e) := by
  induction l with
  | nil => exact fills_pure
  | cons a l ih =>
    rw [List.forM_cons, List.flatMap_cons]
    exact fills_bind (h a List.mem_cons_self) (ih fun b hb ↦ h b (List.mem_cons_of_mem a hb))

/-- Bytes behind the end of an object cannot be written. -/
theorem not_returns_data {data : List UInt8} {length : Nat} (h : data.length < length)
    (m : MsgBuffer) : ¬ Returns (msgWriteData data length) m := by
  induction data generalizing length m with
  | nil =>
    obtain ⟨k, rfl⟩ := Nat.exists_eq_add_of_lt h
    exact not_returns rfl
  | cons b data ih =>
    cases length with
    | zero => cases h
    | succ length =>
      intro hreturns
      obtain ⟨_, m₁, hrun⟩ := hreturns.of_bind
      exact ih (Nat.lt_of_succ_lt_succ h) m₁ ((returns_bind_of_ok hrun).mp hreturns)

/-- No run makes the message shorter, faulting runs included. -/
def Lengthens (x : BufM α) : Prop := ∀ n, Preserves (fun m ↦ n ≤ m.length) x

/-- A result leaves the length. -/
theorem lengthens_pure (a : α) : Lengthens (pure a) := fun _ ↦ preserves_pure a

/-- In sequence the length only grows. -/
theorem lengthens_bind {x : BufM α} {f : α → BufM β} (hx : Lengthens x)
    (hf : ∀ a, Lengthens (f a)) : Lengthens (x >>= f) :=
  fun n ↦ preserves_bind (hx n) fun a ↦ hf a n

/-- A returning writer has not made the message shorter. -/
theorem Lengthens.ok {x : BufM α} (h : Lengthens x) {m m' : MsgBuffer} {a : α}
    (hx : x.run m = .ok a m') : m.length ≤ m'.length := by
  have hle := h m.length m (Nat.le_refl _)
  rwa [final_of_ok hx] at hle

private theorem msgPut_length (b : UInt8) : Keeps MsgBuffer.length (msgPut b) := by
  intro m
  unfold msgPut
  rw [final_bind_of_ok (EStateM.run_get m)]
  split <;> rfl

private theorem lengthens_put (b : UInt8) : Lengthens (msgPut b) := by
  intro n m h
  rwa [msgPut_length b m]

private theorem lengthens_grow (k : Nat) : Lengthens (msgGrow k) :=
  fun _ m h ↦ Nat.le_add_right_of_le (m := m.length) h

/-- `MSG_WriteByte` only makes the message longer. -/
theorem lengthens_byte (b : UInt8) : Lengthens (msgWriteByte b) :=
  lengthens_bind (lengthens_put b) fun _ ↦ lengthens_grow 1

/-- `MSG_WriteData` only makes the message longer. -/
theorem lengthens_data (data : List UInt8) (length : Nat) :
    Lengthens (msgWriteData data length) := by
  induction length generalizing data with
  | zero =>
    cases data with
    | nil => exact lengthens_pure _
    | cons b data => exact lengthens_pure _
  | succ length ih =>
    cases data with
    | nil => exact fun _ ↦ fun _ h ↦ h
    | cons b data => exact lengthens_bind (lengthens_byte b) fun _ ↦ ih data

/-- `MSG_WriteString` only makes the message longer. -/
theorem lengthens_string (str : List UInt8) : Lengthens (msgWriteString (some str)) :=
  lengthens_data _ _

/-- So does a byte with a string behind it. -/
theorem lengthens_byte_string (b : UInt8) (str : List UInt8) :
    Lengthens (do msgWriteByte b; msgWriteString (some str)) :=
  lengthens_bind (lengthens_byte b) fun _ ↦ lengthens_string str

/-- Writing a byte to any buffer makes its message longer by one. -/
theorem msgWriteByte_length {b : UInt8} {m m' : MsgBuffer}
    (h : (msgWriteByte b).run m = .ok () m') : m'.length = m.length + 1 := by
  obtain ⟨_, m₁, h₁, h₂⟩ := run_bind_ok h
  have hput : m₁.length = m.length := (msgPut_length b).ok h₁
  cases h₂
  exact congrArg (· + 1) hput

/-- The message in a buffer has become longer by the bytes `e`, and if it was an output buffer
they have been appended to it. -/
structure Written (m : MsgBuffer) (e : List UInt8) (m' : MsgBuffer) : Prop where
  length : m'.length = m.length + e.length
  bytes : ∀ bs, m = .ofBytes bs → m' = .ofBytes (bs ++ e)

/-- Nothing has been written so far. -/
theorem Written.refl (m : MsgBuffer) : Written m [] m := by
  refine ⟨rfl, fun bs hbs ↦ ?_⟩
  rw [hbs, List.append_nil]

/-- What has been written in two parts is written one behind the other. -/
theorem Written.trans {m m' m'' : MsgBuffer} {e e' : List UInt8} (h : Written m e m')
    (h' : Written m' e' m'') : Written m (e ++ e') m'' := by
  refine ⟨?_, fun bs hbs ↦ ?_⟩
  · rw [h'.length, h.length, List.length_append, Nat.add_assoc]
  · rw [h'.bytes _ (h.bytes bs hbs), List.append_assoc]

/-- A run that returns has written the bytes `e`. -/
def Appends (x : BufM Unit) (e : List UInt8) : Prop :=
  ∀ m m', x.run m = .ok () m' → Written m e m'

/-- A result appends nothing. -/
theorem appends_pure : Appends (pure ()) [] := by
  intro m m' h
  cases h
  exact .refl m

/-- In sequence the parts are appended one behind the other. -/
theorem appends_bind {x y : BufM Unit} {e e' : List UInt8} (hx : Appends x e)
    (hy : Appends y e') : Appends (x >>= fun _ ↦ y) (e ++ e') := by
  intro m m' h
  obtain ⟨_, m₁, h₁, h⟩ := run_bind_ok h
  exact (hx m m₁ h₁).trans (hy m₁ m' h)

private theorem put_ok {bs e : List UInt8} {b : UInt8} {m : MsgBuffer}
    (h : (msgPut b).run (pending bs e) = .ok () m) : m = pending bs (e ++ [b]) := by
  by_cases hroom : (bs ++ e).length < msgSize
  · rw [put_run b hroom] at h
    cases h
    rfl
  · unfold msgPut at h
    rw [run_bind_of_ok (EStateM.run_get _),
      if_neg (show ¬ (pending bs e).index < msgSize from hroom)] at h
    cases h

/-- `MSG_WriteByte` appends one byte if it returns. -/
theorem appends_byte (b : UInt8) : Appends (msgWriteByte b) [b] := by
  intro m m' h
  refine ⟨msgWriteByte_length h, fun bs hbs ↦ ?_⟩
  rw [hbs, ← pending_nil] at h
  obtain ⟨_, m₁, h₁, h⟩ := run_bind_ok h
  rw [put_ok h₁] at h
  have hgrow := grow_run bs [b]
  rw [List.nil_append] at h
  exact (EStateM.Result.ok.inj (hgrow.symm.trans h)).2.symm

/-- `MSG_WriteShort` appends two bytes if it returns. -/
theorem appends_short (s : UInt16) : Appends (msgWriteShort s) (shortBytes s) := by
  intro m m' h
  constructor
  · obtain ⟨_, m₁, h₁, h⟩ := run_bind_ok h
    obtain ⟨_, m₂, h₂, h⟩ := run_bind_ok h
    have hput : m₂.length = m.length := ((msgPut_length _).ok h₂).trans ((msgPut_length _).ok h₁)
    cases h
    exact congrArg (· + 2) hput
  · intro bs hbs
    rw [hbs, ← pending_nil] at h
    obtain ⟨_, m₁, h₁, h⟩ := run_bind_ok h
    obtain ⟨_, m₂, h₂, h⟩ := run_bind_ok h
    rw [put_ok h₁] at h₂
    rw [put_ok h₂] at h
    have hgrow := grow_run bs (shortBytes s)
    exact (EStateM.Result.ok.inj (hgrow.symm.trans h)).2.symm

/-- `MSG_WriteData` appends as many bytes as it is told to, if it returns. -/
theorem appends_data (data : List UInt8) (length : Nat) :
    Appends (msgWriteData data length) (data.take length) := by
  induction length generalizing data with
  | zero =>
    cases data with
    | nil => exact appends_pure
    | cons b data => exact appends_pure
  | succ length ih =>
    cases data with
    | nil =>
      intro m m' h
      cases h
    | cons b data => exact appends_bind (appends_byte b) (ih data)

/-- `MSG_WriteString` appends the characters and a NUL if it returns. -/
theorem appends_string (str : List UInt8) :
    Appends (msgWriteString (some str)) (str ++ [0]) := by
  have h := appends_data (str ++ [0]) (str.length + 1)
  rwa [List.take_of_length_le (by simp)] at h

/-- A whole array. -/
theorem appends_field {n : Nat} (f : Field n) : Appends (msgWriteData f.bytes n) f.bytes := by
  have h := appends_data f.bytes n
  rwa [List.take_of_length_le (Nat.le_of_eq f.length_eq)] at h

/-- The message in an output buffer is what has been written. -/
theorem MsgBuffer.contents_ofBytes (bs : List UInt8) : (MsgBuffer.ofBytes bs).contents = bs := by
  apply List.ext_getElem
  · simp [MsgBuffer.contents, MsgBuffer.ofBytes]
  · intro i hi hb
    simp only [MsgBuffer.contents, List.getElem_map, List.getElem_range]
    exact (List.getElem_eq_getD 0).symm

/-- What has been written to a cleared buffer. -/
theorem Written.contents {e : List UInt8} {m : MsgBuffer} (h : Written .zero e m) :
    m.contents = e := by
  rw [h.bytes [] rfl, MsgBuffer.contents_ofBytes, List.nil_append]

end Q2Admin
