import Mathlib.Data.List.Chain
import Mathlib.Data.List.Nodup
import Mathlib.Logic.Function.Basic
import Q2Admin.Base.While

/-!
# Rings of linked nodes

General library. Nodes that exist are linked to the one behind them and to the one in front of them.
`Links.Ring` says that the nodes of a list form a ring with a head that is none of them. Nodes are
linked in and out between two neighbours, and a walk from the head back to the head comes by all
nodes in the order of the list.
-/

namespace Q2Admin

variable {α σ ρ : Type}

/-- The two links of every node that exists. -/
structure Links (α : Type) where
  next : α → Option α
  prev : α → Option α

namespace Links

/-- The second node is behind the first one. -/
def Joined (c : Links α) (a b : α) : Prop := c.next a = some b ∧ c.prev b = some a

/-- Nodes form a ring: the head, and then these in their order. -/
structure Ring (c : Links α) (h : α) (l : List α) : Prop where
  chain : (h :: (l ++ [h])).IsChain c.Joined
  nodup : (h :: l).Nodup

/-- The node exists. -/
def Has (c : Links α) (p : α) : Prop := c.next p ≠ none ∧ c.prev p ≠ none

section Update

variable [DecidableEq α]

/-- Put a node between two others. -/
def link (c : Links α) (a b x : α) : Links α where
  next := Function.update (Function.update c.next a (some x)) x (some b)
  prev := Function.update (Function.update c.prev b (some x)) x (some a)

/-- Join two nodes. -/
def unlink (c : Links α) (a b : α) : Links α where
  next := Function.update c.next a (some b)
  prev := Function.update c.prev b (some a)

end Update

variable {c c' : Links α} {h x a b : α} {l l₁ l₂ : List α}

/-- Links that nothing in the chain uses do not matter. -/
theorem isChain_congr (hl : l.IsChain c.Joined) (hnext : ∀ p ∈ l.dropLast, c'.next p = c.next p)
    (hprev : ∀ p ∈ l.tail, c'.prev p = c.prev p) : l.IsChain c'.Joined := by
  rw [List.isChain_iff_forall_rel_of_append_cons_cons] at hl ⊢
  intro a b l₁ l₂ heq
  obtain ⟨hab, hba⟩ := hl heq
  have ha : a ∈ l.dropLast := by
    rw [heq, List.dropLast_append_cons]
    simp
  have hb : b ∈ l.tail := by
    rw [heq]
    cases l₁ <;> simp
  exact ⟨(hnext a ha).trans hab, (hprev b hb).trans hba⟩

namespace Ring

/-- What happens to other nodes does not matter. -/
theorem congr (hring : c.Ring h l) (hnext : ∀ p ∈ h :: l, c'.next p = c.next p)
    (hprev : ∀ p ∈ h :: l, c'.prev p = c.prev p) : c'.Ring h l := by
  refine ⟨isChain_congr hring.chain (fun p hp ↦ ?_) fun p hp ↦ ?_, hring.nodup⟩
  · rw [← List.cons_append, List.dropLast_concat] at hp
    exact hnext p hp
  · refine hprev p ?_
    rcases List.mem_append.mp hp with hp | hp
    · exact List.mem_cons_of_mem _ hp
    · rw [List.mem_singleton.mp hp]
      exact List.mem_cons_self

/-- A node that is linked to itself is the head of a ring without further nodes. -/
theorem nil (hnext : c.next h = some h) (hprev : c.prev h = some h) : c.Ring h [] :=
  ⟨List.isChain_pair.mpr ⟨hnext, hprev⟩, List.nodup_singleton h⟩

/-- The nodes at a place in a ring, and the parts on both sides of it. -/
theorem split (l₁ l₂ : List α) (hring : c.Ring h (l₁ ++ l₂)) :
    (h :: l₁).IsChain c.Joined ∧ (l₂ ++ [h]).IsChain c.Joined ∧
      ∀ a ∈ (h :: l₁).getLast?, ∀ b ∈ (l₂ ++ [h]).head?, c.Joined a b := by
  have hchain := hring.chain
  rw [List.append_assoc, ← List.cons_append, List.isChain_append] at hchain
  exact hchain

/-- The neighbours at a place in a ring. -/
theorem joined (l₁ l₂ : List α) (hring : c.Ring h (l₁ ++ l₂)) :
    c.Joined (l₁.getLast?.getD h) (l₂.head?.getD h) := by
  have hjoined := (split l₁ l₂ hring).2.2
  rw [List.getLast?_cons] at hjoined
  cases l₂ with
  | nil => exact hjoined _ rfl h rfl
  | cons x l₂ => exact hjoined _ rfl x rfl

/-- The first node of a ring is behind its head. -/
theorem next_head (hring : c.Ring h l) : c.next h = some (l.head?.getD h) := (joined [] l hring).1

/-- The last node of a ring is in front of its head. -/
theorem prev_head (hring : c.Ring h l) : c.prev h = some (l.getLast?.getD h) :=
  (joined l [] ((List.append_nil l).symm ▸ hring)).2

/-- The node behind another one. -/
theorem next_of_append (l₁ : List α) (hring : c.Ring h (l₁ ++ x :: l₂)) :
    c.next x = some (l₂.head?.getD h) := by
  have hjoined := joined (l₁ ++ [x]) l₂ (by rwa [List.append_assoc])
  rw [List.getLast?_concat] at hjoined
  exact hjoined.1

/-- The node in front of another one. -/
theorem prev_of_append (l₁ : List α) (hring : c.Ring h (l₁ ++ x :: l₂)) :
    c.prev x = some (l₁.getLast?.getD h) := (joined l₁ (x :: l₂) hring).2

/-- The nodes of a ring exist. -/
theorem has (hring : c.Ring h l) {p : α} (hp : p ∈ h :: l) : c.Has p := by
  rcases List.mem_cons.mp hp with rfl | hp
  · exact ⟨by rw [hring.next_head]; nofun, by rw [hring.prev_head]; nofun⟩
  · obtain ⟨l₁, l₂, rfl⟩ := List.append_of_mem hp
    exact ⟨by rw [hring.next_of_append l₁]; nofun, by rw [hring.prev_of_append l₁]; nofun⟩

end Ring

-- The neighbours of a place in a ring are elsewhere in it only as the ends of its two sides.
private theorem ne_neighbour (hnodup : (h :: (l₁ ++ l₂)).Nodup) :
    ((∀ p ∈ (h :: l₁).dropLast, p ≠ l₁.getLast?.getD h) ∧ ∀ p ∈ l₁, p ≠ l₂.head?.getD h) ∧
      (∀ p ∈ l₂, p ≠ l₁.getLast?.getD h) ∧ ∀ p ∈ (l₂ ++ [h]).tail, p ≠ l₂.head?.getD h := by
  obtain ⟨hhead, hnodup⟩ := List.nodup_cons.mp hnodup
  obtain ⟨hleft, hright, hdisjoint⟩ := List.nodup_append.mp hnodup
  have hout₁ : h ∉ l₁ := fun hmem ↦ hhead (List.mem_append_left _ hmem)
  have hout₂ : h ∉ l₂ := fun hmem ↦ hhead (List.mem_append_right _ hmem)
  have hlast : (h :: l₁).dropLast ++ [l₁.getLast?.getD h] = h :: l₁ :=
    List.dropLast_append_getLast? _ (by rw [List.getLast?_cons]; rfl)
  refine ⟨⟨fun p hp heq ↦ ?_, fun p hp heq ↦ ?_⟩, fun p hp heq ↦ ?_, fun p hp heq ↦ ?_⟩
  · have hall : ((h :: l₁).dropLast ++ [l₁.getLast?.getD h]).Nodup := by
      rw [hlast]
      exact List.nodup_cons.mpr ⟨hout₁, hleft⟩
    exact (List.nodup_append.mp hall).2.2 p hp _ (List.mem_singleton.mpr rfl) heq
  · cases l₂ with
    | nil =>
      rw [show p = h from heq] at hp
      exact hout₁ hp
    | cons y l₂ => exact hdisjoint p hp y List.mem_cons_self heq
  · have hmem : l₁.getLast?.getD h ∈ h :: l₁ := by
      rw [← hlast]
      exact List.mem_append_right _ (List.mem_singleton.mpr rfl)
    rcases List.mem_cons.mp (heq ▸ hmem) with hph | hpl
    · exact hout₂ (hph ▸ hp)
    · exact hdisjoint p hpl p hp rfl
  · cases l₂ with
    | nil => cases hp
    | cons y l₂ =>
      obtain ⟨hy, -⟩ := List.nodup_cons.mp hright
      rcases List.mem_append.mp hp with hp | hp
      · rw [show p = y from heq] at hp
        exact hy hp
      · exact hout₂ (List.mem_singleton.mp hp ▸ heq ▸ List.mem_cons_self)

namespace Ring

variable [DecidableEq α]

/-- Linking a node in. -/
theorem link (l₁ l₂ : List α) (hring : c.Ring h (l₁ ++ l₂)) (hx : x ∉ h :: (l₁ ++ l₂)) :
    (c.link (l₁.getLast?.getD h) (l₂.head?.getD h) x).Ring h (l₁ ++ x :: l₂) := by
  obtain ⟨hleft, hright, -⟩ := split l₁ l₂ hring
  obtain ⟨⟨hnext₁, hprev₁⟩, hnext₂, hprev₂⟩ := ne_neighbour hring.nodup
  have hne {p : α} (hp : p ∈ h :: (l₁ ++ l₂)) : p ≠ x := fun heq ↦ hx (heq ▸ hp)
  have hmem₁ {p : α} (hp : p ∈ h :: l₁) : p ∈ h :: (l₁ ++ l₂) := by
    rcases List.mem_cons.mp hp with rfl | hp
    · exact List.mem_cons_self
    · exact List.mem_cons_of_mem _ (List.mem_append_left _ hp)
  have hmem₂ {p : α} (hp : p ∈ l₂ ++ [h]) : p ∈ h :: (l₁ ++ l₂) := by
    rcases List.mem_append.mp hp with hp | hp
    · exact List.mem_cons_of_mem _ (List.mem_append_right _ hp)
    · exact List.mem_singleton.mp hp ▸ List.mem_cons_self
  have hnext {p : α} (hp : p ∈ h :: (l₁ ++ l₂)) (ha : p ≠ l₁.getLast?.getD h) :
      (c.link (l₁.getLast?.getD h) (l₂.head?.getD h) x).next p = c.next p :=
    (Function.update_of_ne (hne hp) _ _).trans (Function.update_of_ne ha _ _)
  have hprev {p : α} (hp : p ∈ h :: (l₁ ++ l₂)) (hb : p ≠ l₂.head?.getD h) :
      (c.link (l₁.getLast?.getD h) (l₂.head?.getD h) x).prev p = c.prev p :=
    (Function.update_of_ne (hne hp) _ _).trans (Function.update_of_ne hb _ _)
  constructor
  · rw [List.append_assoc, ← List.cons_append, List.isChain_append]
    refine ⟨?_, List.isChain_cons.mpr ⟨fun b hb ↦ ?_, ?_⟩, fun a ha b hb ↦ ?_⟩
    · refine isChain_congr hleft (fun p hp ↦ ?_) fun p hp ↦ ?_
      · exact hnext (hmem₁ (List.dropLast_subset _ hp)) (hnext₁ p hp)
      · exact hprev (hmem₁ (List.mem_cons_of_mem _ hp)) (hprev₁ p hp)
    · have hbmem : b ∈ l₂ ++ [h] := List.mem_of_mem_head? hb
      have hb : l₂.head?.getD h = b := by cases l₂ <;> cases hb <;> rfl
      subst hb
      exact ⟨Function.update_self _ _ _,
        (Function.update_of_ne (hne (hmem₂ hbmem)) _ _).trans (Function.update_self _ _ _)⟩
    · refine isChain_congr hright (fun p hp ↦ ?_) fun p hp ↦ ?_
      · have hp : p ∈ (l₂ ++ [h]).dropLast := hp
        rw [List.dropLast_concat] at hp
        exact hnext (hmem₂ (List.mem_append_left _ hp)) (hnext₂ p hp)
      · exact hprev (hmem₂ (List.mem_of_mem_tail hp)) (hprev₂ p hp)
    · have hamem : a ∈ h :: l₁ := List.mem_of_getLast? ha
      rw [List.getLast?_cons] at ha
      cases ha
      cases hb
      exact ⟨(Function.update_of_ne (hne (hmem₁ hamem)) _ _).trans (Function.update_self _ _ _),
        Function.update_self _ _ _⟩
  · have hperm : (h :: (l₁ ++ x :: l₂)).Perm (x :: h :: (l₁ ++ l₂)) :=
      (List.perm_middle.cons h).trans (List.Perm.swap x h _)
    exact hperm.nodup_iff.mpr (List.nodup_cons.mpr ⟨hx, hring.nodup⟩)

/-- Linking a node out. -/
theorem unlink (l₁ l₂ : List α) (hring : c.Ring h (l₁ ++ x :: l₂)) :
    (c.unlink (l₁.getLast?.getD h) (l₂.head?.getD h)).Ring h (l₁ ++ l₂) := by
  obtain ⟨hleft, hright, -⟩ := split l₁ (x :: l₂) hring
  have hnodup : (h :: (l₁ ++ l₂)).Nodup :=
    hring.nodup.sublist (by simp)
  obtain ⟨⟨hnext₁, hprev₁⟩, hnext₂, hprev₂⟩ := ne_neighbour hnodup
  refine ⟨?_, hnodup⟩
  rw [List.append_assoc, ← List.cons_append, List.isChain_append]
  refine ⟨?_, ?_, fun a ha b hb ↦ ?_⟩
  · refine isChain_congr hleft (fun p hp ↦ ?_) fun p hp ↦ ?_
    · exact Function.update_of_ne (hnext₁ p hp) _ _
    · exact Function.update_of_ne (hprev₁ p hp) _ _
  · refine isChain_congr hright.tail (fun p hp ↦ ?_) fun p hp ↦ ?_
    · rw [List.dropLast_concat] at hp
      exact Function.update_of_ne (hnext₂ p hp) _ _
    · exact Function.update_of_ne (hprev₂ p hp) _ _
  · rw [List.getLast?_cons] at ha
    cases ha
    have hb : l₂.head?.getD h = b := by
      cases l₂ <;> cases hb <;> rfl
    subst hb
    exact ⟨Function.update_self _ _ _, Function.update_self _ _ _⟩

end Ring

/-- A round of a walk around the ring of a head: back at the head, the walk is done; at another
node, the visit goes on or stops the walk. There is no result where a node does not exist. -/
def each [DecidableEq α] (c : Links α) (h : α) (visit : σ → α → σ ⊕ ρ) (done : σ → ρ) :
    α × σ → (α × σ) ⊕ Option ρ := fun (cursor, s) ↦
  if cursor = h then .inr (some (done s))
  else
    match visit s cursor with
    | .inl s' =>
      match c.next cursor with
      | some next => .inl (next, s')
      | none => .inr none
    | .inr r => .inr (some r)

end Links

/-- The visits of a walk along a list. -/
def eachOf (visit : σ → α → σ ⊕ ρ) (done : σ → ρ) : List α → σ → ρ
  | [], s => done s
  | x :: l, s =>
    match visit s x with
    | .inl s' => eachOf visit done l s'
    | .inr r => r

namespace Links

variable [DecidableEq α] {c : Links α} {h : α} {l : List α}

private theorem Ring.each_from (visit : σ → α → σ ⊕ ρ) (done : σ → ρ) (l₁ l₂ : List α)
    (hring : c.Ring h (l₁ ++ l₂)) (s : σ) {fuel : Nat} (hfuel : l₂.length < fuel) :
    rounds (c.each h visit done) fuel (l₂.head?.getD h, s) =
      some (some (eachOf visit done l₂ s)) := by
  obtain ⟨fuel, rfl⟩ := Nat.exists_eq_succ_of_ne_zero (Nat.ne_zero_of_lt hfuel)
  induction l₂ generalizing l₁ s fuel with
  | nil => simp [rounds, Links.each, eachOf]
  | cons x l₂ ih =>
    have hne : x ≠ h := fun heq ↦ by
      refine (List.nodup_cons.mp hring.nodup).1 ?_
      rw [← heq]
      exact List.mem_append_right _ List.mem_cons_self
    have hnext := hring.next_of_append l₁
    have hfuel : l₂.length < fuel := Nat.lt_of_succ_lt_succ hfuel
    change rounds _ _ (x, s) = _
    unfold rounds eachOf
    cases hvisit : visit s x with
    | inl s' =>
      have hround : c.each h visit done (x, s) = .inl (l₂.head?.getD h, s') := by
        simp only [Links.each, if_neg hne, hvisit, hnext]
      rw [hround]
      obtain ⟨fuel, rfl⟩ := Nat.exists_eq_succ_of_ne_zero (Nat.ne_zero_of_lt hfuel)
      exact ih (l₁ ++ [x]) (by rwa [List.append_assoc]) s' fuel hfuel
    | inr r =>
      have hround : c.each h visit done (x, s) = .inr (some r) := by
        simp only [Links.each, if_neg hne, hvisit]
      rw [hround]
      rfl

/-- A walk around the ring of a head from its first node, if it is over within as many rounds as
there is fuel and all nodes exist. -/
def walk (c : Links α) (fuel : Nat) (h : α) (visit : σ → α → σ ⊕ ρ) (done : σ → ρ) (s : σ) :
    Option ρ :=
  (c.next h).bind fun first ↦ (rounds (c.each h visit done) fuel (first, s)).join

/-- A walk around a ring visits its nodes in their order. -/
theorem Ring.walk (visit : σ → α → σ ⊕ ρ) (done : σ → ρ) (hring : c.Ring h l) (s : σ) {fuel : Nat}
    (hfuel : l.length < fuel) :
    c.walk fuel h visit done s = some (eachOf visit done l s) := by
  unfold Links.walk
  rw [hring.next_head, Option.bind_some, each_from visit done [] l hring s hfuel]
  rfl

end Links

end Q2Admin
