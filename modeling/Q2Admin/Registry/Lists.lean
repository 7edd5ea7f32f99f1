import Mathlib.Data.List.TakeWhile
import Mathlib.Data.List.Sort
import Q2Admin.Base.Chain

/-!
# Linked lists

Library `Q2Admin.Registry`. Source `list.h`. A list is a ring of nodes with a head. A pointer to a
node is a number, and nodes lie in memory in the order of these. `Holds` relates the memory to the
lists that are in it, by their heads; every operation changes one of them and leaves the others.
-/

namespace Q2Admin

/-! ### Operations -/

/-- An assignment to `next`; there is no result where the node does not exist. -/
def setNext (p q : Nat) (c : Links Nat) : Option (Links Nat) :=
  (c.next p).map fun _ ↦ { c with next := Function.update c.next p (some q) }

/-- An assignment to `prev`. -/
def setPrev (p q : Nat) (c : Links Nat) : Option (Links Nat) :=
  (c.prev p).map fun _ ↦ { c with prev := Function.update c.prev p (some q) }

/-- `List_Link`; `list.h:33–41`. -/
def listLink (prev next elem : Nat) (c : Links Nat) : Option (Links Nat) := do
  let c ← setNext prev elem c
  let c ← setPrev next elem c
  let c ← setPrev elem prev c
  setNext elem next c

/-- `List_Unlink`; `list.h:43–47`. -/
def listUnlink (prev next : Nat) (c : Links Nat) : Option (Links Nat) := do
  let c ← setNext prev next c
  setPrev next prev c

/-- `List_Init`; `list.h:49–52`. -/
def listInit (list : Nat) (c : Links Nat) : Option (Links Nat) := do
  let c ← setNext list list c
  setPrev list list c

/-- `List_Append`; `list.h:54–57`. -/
def listAppend (tail elem : Nat) (c : Links Nat) : Option (Links Nat) := do
  let prev ← c.prev tail
  listLink prev tail elem c

/-- `List_Insert`; `list.h:59–62`. -/
def listInsert (head elem : Nat) (c : Links Nat) : Option (Links Nat) := do
  let next ← c.next head
  listLink head next elem c

/-- `List_SeqAdd`; `list.h:68–79`. -/
def listSeqAdd (fuel : Nat) (list elem : Nat) (c : Links Nat) : Option (Links Nat) := do
  let cursor ← c.walk fuel list
    (fun (_ : Unit) cursor ↦ if elem < cursor then .inr cursor else .inl ()) (fun _ ↦ list) ()
  listAppend cursor elem c

/-- `List_Delete`; `list.h:81–85`. -/
def listDelete (elem : Nat) (c : Links Nat) : Option (Links Nat) := do
  let prev ← c.prev elem
  let next ← c.next elem
  let c ← listUnlink prev next c
  listInit elem c

/-- `List_Remove`; `list.h:87–90`. -/
def listRemove (elem : Nat) (c : Links Nat) : Option (Links Nat) := do
  let prev ← c.prev elem
  let next ← c.next elem
  listUnlink prev next c

/-- `LIST_EMPTY`; `list.h:95–96`. -/
def listEmpty (list : Nat) (c : Links Nat) : Option Bool := do
  let next ← c.next list
  return next == list

/-- `LIST_SINGLE`; `list.h:98–99`. -/
def listSingle (list : Nat) (c : Links Nat) : Option Bool := do
  let empty ← listEmpty list c
  if empty then return false
  let next ← c.next list
  let prev ← c.prev list
  return next == prev

/-- `List_Count`, for a list with fewer nodes than its `int` counts; `list.h:129–139`. -/
def listCount (fuel : Nat) (list : Nat) (c : Links Nat) : Option Nat :=
  c.walk fuel list (fun (count : Nat) _ ↦ (.inl (count + 1) : Nat ⊕ Nat)) id 0

/-- `List_Index`, with the node instead of what it is a part of and as long as its counter does not
overflow; `list.h:141–154`. -/
def listIndex (fuel : Nat) (list : Nat) (index : Int) (c : Links Nat) : Option (Option Nat) :=
  c.walk fuel list
    (fun (count : Nat) cursor ↦
      if (count : Int) = index then .inr (some cursor) else .inl (count + 1))
    (fun _ ↦ none) 0

/-! ### One operation -/

/-- The lists of a program by their heads. -/
abbrev ListMap := Nat → Option (List Nat)

namespace ListMap

/-- The node is in no list, and no head. -/
def Loose (ls : ListMap) (x : Nat) : Prop := ∀ h l, ls h = some l → x ∉ h :: l

end ListMap

namespace Links

variable {c c' : Links Nat} {ls : ListMap} {h x a b : Nat} {l l' l₁ l₂ : List Nat}

/-- The memory holds these lists, which share no nodes. -/
structure Holds (c : Links Nat) (ls : ListMap) : Prop where
  ring : ∀ h l, ls h = some l → c.Ring h l
  apart : ∀ h h' l l' p, ls h = some l → ls h' = some l' → p ∈ h :: l → p ∈ h' :: l' → h = h'

/-- The link forward of an initialised node is set. -/
theorem setNext_eq (hp : c.next a ≠ none) :
    setNext a b c = some { c with next := Function.update c.next a (some b) } := by
  obtain ⟨q, hq⟩ := Option.ne_none_iff_exists'.mp hp
  unfold setNext
  rw [hq]
  rfl

/-- The link back of an initialised node is set. -/
theorem setPrev_eq (hp : c.prev a ≠ none) :
    setPrev a b c = some { c with prev := Function.update c.prev a (some b) } := by
  obtain ⟨q, hq⟩ := Option.ne_none_iff_exists'.mp hp
  unfold setPrev
  rw [hq]
  rfl

/-- `List_Link` puts a node between two others. -/
theorem listLink_eq (ha : c.Has a) (hb : c.Has b) (hx : c.Has x) (hxa : x ≠ a) (hxb : x ≠ b) :
    listLink a b x c = some (c.link a b x) := by
  have hnext : Function.update c.next a (some x) x ≠ none := by
    rw [Function.update_of_ne hxa]
    exact hx.1
  have hprev : Function.update c.prev b (some x) x ≠ none := by
    rw [Function.update_of_ne hxb]
    exact hx.2
  unfold listLink
  rw [setNext_eq ha.1, Option.bind_eq_bind, Option.bind_some, setPrev_eq (by exact hb.2),
    Option.bind_some, setPrev_eq (by exact hprev), Option.bind_some, setNext_eq (by exact hnext)]
  rfl

/-- `List_Unlink` joins two nodes. -/
theorem listUnlink_eq (ha : c.Has a) (hb : c.Has b) :
    listUnlink a b c = some (c.unlink a b) := by
  unfold listUnlink
  rw [setNext_eq ha.1, Option.bind_eq_bind, Option.bind_some, setPrev_eq (by exact hb.2)]
  rfl

/-- Nodes that exist go on existing. -/
theorem Has.link (hp : c.Has x) (y : Nat) : (c.link a b y).Has x := by
  constructor
  · change Function.update (Function.update c.next a _) y _ x ≠ none
    by_cases hy : x = y
    · rw [hy, Function.update_self]
      nofun
    · rw [Function.update_of_ne hy]
      by_cases ha : x = a
      · rw [ha, Function.update_self]
        nofun
      · rw [Function.update_of_ne ha]
        exact hp.1
  · change Function.update (Function.update c.prev b _) y _ x ≠ none
    by_cases hy : x = y
    · rw [hy, Function.update_self]
      nofun
    · rw [Function.update_of_ne hy]
      by_cases hb : x = b
      · rw [hb, Function.update_self]
        nofun
      · rw [Function.update_of_ne hb]
        exact hp.2

/-- Joining two nodes loses no node. -/
theorem Has.unlink (hp : c.Has x) : (c.unlink a b).Has x := by
  constructor
  · change Function.update c.next a _ x ≠ none
    by_cases ha : x = a
    · rw [ha, Function.update_self]
      nofun
    · rw [Function.update_of_ne ha]
      exact hp.1
  · change Function.update c.prev b _ x ≠ none
    by_cases hb : x = b
    · rw [hb, Function.update_self]
      nofun
    · rw [Function.update_of_ne hb]
      exact hp.2

namespace Holds

-- One list changes, with links of its own nodes only and nodes that were loose.
private theorem replace (hc : c.Holds ls) (hl : ls h = some l) (hring : c'.Ring h l')
    (hsame : ∀ p, p ∉ h :: l → p ∉ h :: l' → c'.next p = c.next p ∧ c'.prev p = c.prev p)
    (hnew : ∀ p ∈ l', p ∈ l ∨ ls.Loose p) : c'.Holds (Function.update ls h (some l')) := by
  have hout {h' : Nat} {m : List Nat} {p : Nat} (hne : h' ≠ h) (hm : ls h' = some m)
      (hp : p ∈ h' :: m) : p ∉ h :: l ∧ p ∉ h :: l' := by
    have hold : p ∉ h :: l := fun hmem ↦ hne (hc.apart h' h m l p hm hl hp hmem)
    refine ⟨hold, fun hmem ↦ ?_⟩
    rcases List.mem_cons.mp hmem with heq | hmem
    · exact hold (heq ▸ List.mem_cons_self)
    · rcases hnew p hmem with hmem | hloose
      · exact hold (List.mem_cons_of_mem _ hmem)
      · exact hloose h' m hm hp
  have hlist {h' : Nat} {m : List Nat} (hm : Function.update ls h (some l') h' = some m) :
      h' = h ∧ m = l' ∨ h' ≠ h ∧ ls h' = some m := by
    by_cases hne : h' = h
    · rw [hne, Function.update_self] at hm
      exact .inl ⟨hne, (Option.some.inj hm).symm⟩
    · rw [Function.update_of_ne hne] at hm
      exact .inr ⟨hne, hm⟩
  constructor
  · intro h' m hm
    rcases hlist hm with ⟨rfl, rfl⟩ | ⟨hne, hm⟩
    · exact hring
    · have hfree {p : Nat} (hp : p ∈ h' :: m) :=
        hsame p (hout hne hm hp).1 (hout hne hm hp).2
      exact (hc.ring h' m hm).congr (fun p hp ↦ (hfree hp).1) fun p hp ↦ (hfree hp).2
  · intro h₁ h₂ m₁ m₂ p hm₁ hm₂ hp₁ hp₂
    rcases hlist hm₁ with ⟨heq₁, hl₁⟩ | ⟨hne₁, hm₁⟩ <;>
      rcases hlist hm₂ with ⟨heq₂, hl₂⟩ | ⟨hne₂, hm₂⟩
    · exact heq₁.trans heq₂.symm
    · exact absurd (heq₁ ▸ hl₁ ▸ hp₁) (hout hne₂ hm₂ hp₂).2
    · exact absurd (heq₂ ▸ hl₂ ▸ hp₂) (hout hne₁ hm₁ hp₁).2
    · exact hc.apart h₁ h₂ m₁ m₂ p hm₁ hm₂ hp₁ hp₂

/-- Linking a loose node in at a place of a list. -/
theorem link (l₁ l₂ : List Nat) (hc : c.Holds ls) (hl : ls h = some (l₁ ++ l₂)) (hx : ls.Loose x)
    (hhas : c.Has x) :
    listLink (l₁.getLast?.getD h) (l₂.head?.getD h) x c =
        some (c.link (l₁.getLast?.getD h) (l₂.head?.getD h) x) ∧
      (c.link (l₁.getLast?.getD h) (l₂.head?.getD h) x).Holds
        (Function.update ls h (some (l₁ ++ x :: l₂))) := by
  have hring := hc.ring h _ hl
  have hout := hx h _ hl
  have hleft : l₁.getLast?.getD h ∈ h :: (l₁ ++ l₂) := by
    cases hlast : l₁.getLast? with
    | none => exact List.mem_cons_self
    | some p => exact List.mem_cons_of_mem _ (List.mem_append_left _ (List.mem_of_getLast? hlast))
  have hright : l₂.head?.getD h ∈ h :: (l₁ ++ l₂) := by
    cases hhead : l₂.head? with
    | none => exact List.mem_cons_self
    | some p => exact List.mem_cons_of_mem _ (List.mem_append_right _ (List.mem_of_head? hhead))
  refine ⟨listLink_eq (hring.has hleft) (hring.has hright) hhas (fun heq ↦ hout (heq ▸ hleft))
    fun heq ↦ hout (heq ▸ hright), hc.replace hl (hring.link l₁ l₂ hout) ?_ fun p hp ↦ ?_⟩
  · intro p hold hnew
    have hpx : p ≠ x := fun heq ↦ hnew (heq ▸ List.mem_cons_of_mem _
      (List.mem_append_right _ List.mem_cons_self))
    have hpa : p ≠ l₁.getLast?.getD h := fun heq ↦ hold (heq ▸ hleft)
    have hpb : p ≠ l₂.head?.getD h := fun heq ↦ hold (heq ▸ hright)
    exact ⟨(Function.update_of_ne hpx _ _).trans (Function.update_of_ne hpa _ _),
      (Function.update_of_ne hpx _ _).trans (Function.update_of_ne hpb _ _)⟩
  · rcases List.mem_append.mp hp with hp | hp
    · exact .inl (List.mem_append_left _ hp)
    · rcases List.mem_cons.mp hp with rfl | hp
      · exact .inr hx
      · exact .inl (List.mem_append_right _ hp)

/-- Linking a node out of its list. -/
theorem unlink (l₁ l₂ : List Nat) (hc : c.Holds ls) (hl : ls h = some (l₁ ++ x :: l₂)) :
    listRemove x c = some (c.unlink (l₁.getLast?.getD h) (l₂.head?.getD h)) ∧
      (c.unlink (l₁.getLast?.getD h) (l₂.head?.getD h)).Holds
        (Function.update ls h (some (l₁ ++ l₂))) := by
  have hring := hc.ring h _ hl
  have hleft : l₁.getLast?.getD h ∈ h :: (l₁ ++ x :: l₂) := by
    cases hlast : l₁.getLast? with
    | none => exact List.mem_cons_self
    | some p => exact List.mem_cons_of_mem _ (List.mem_append_left _ (List.mem_of_getLast? hlast))
  have hright : l₂.head?.getD h ∈ h :: (l₁ ++ x :: l₂) := by
    cases hhead : l₂.head? with
    | none => exact List.mem_cons_self
    | some p =>
      exact List.mem_cons_of_mem _
        (List.mem_append_right _ (List.mem_cons_of_mem _ (List.mem_of_head? hhead)))
  constructor
  · unfold listRemove
    rw [hring.prev_of_append l₁, hring.next_of_append l₁]
    exact listUnlink_eq (hring.has hleft) (hring.has hright)
  · refine hc.replace hl (hring.unlink l₁ l₂) (fun p hold _ ↦ ?_) fun p hp ↦ ?_
    · have hpa : p ≠ l₁.getLast?.getD h := fun heq ↦ hold (heq ▸ hleft)
      have hpb : p ≠ l₂.head?.getD h := fun heq ↦ hold (heq ▸ hright)
      exact ⟨Function.update_of_ne hpa _ _, Function.update_of_ne hpb _ _⟩
    · left
      rcases List.mem_append.mp hp with hp | hp
      · exact List.mem_append_left _ hp
      · exact List.mem_append_right _ (List.mem_cons_of_mem _ hp)

/-- A node that has been linked out is loose. -/
theorem loose_of_unlink (l₁ l₂ : List Nat) (hc : c.Holds ls)
    (hl : ls h = some (l₁ ++ x :: l₂)) :
    ListMap.Loose (Function.update ls h (some (l₁ ++ l₂))) x := by
  have hmem : x ∈ h :: (l₁ ++ x :: l₂) :=
    List.mem_cons_of_mem _ (List.mem_append_right _ List.mem_cons_self)
  have hperm : (h :: (l₁ ++ x :: l₂)).Perm (x :: h :: (l₁ ++ l₂)) :=
    (List.perm_middle.cons h).trans (List.Perm.swap x h _)
  have hout := (List.nodup_cons.mp (hperm.nodup_iff.mp (hc.ring h _ hl).nodup)).1
  intro h' m hm
  by_cases hne : h' = h
  · rw [hne, Function.update_self] at hm
    cases hm
    exact hne ▸ hout
  · rw [Function.update_of_ne hne] at hm
    exact fun hx ↦ hne (hc.apart h' h m _ x hm hl hx hmem)

/-- A node that is not in the list of another head becomes the head of a list without nodes. -/
theorem init (hc : c.Holds ls) (hx : ∀ h l, ls h = some l → x ∈ h :: l → h = x)
    (hhas : c.Has x) :
    ∃ c', listInit x c = some c' ∧ c'.Holds (Function.update ls x (some [])) ∧
      ∀ p, c.Has p → c'.Has p := by
  have hrun : listInit x c = some (c.unlink x x) := listUnlink_eq hhas hhas
  refine ⟨_, hrun, ⟨fun h l hl ↦ ?_, fun h h' l l' p hl hl' hp hp' ↦ ?_⟩, fun p hp ↦ hp.unlink⟩
  · by_cases hne : h = x
    · rw [hne, Function.update_self] at hl
      cases hl
      exact hne ▸ .nil (Function.update_self _ _ _) (Function.update_self _ _ _)
    · rw [Function.update_of_ne hne] at hl
      have hout {p : Nat} (hp : p ∈ h :: l) : p ≠ x := fun heq ↦ hne (hx h l hl (heq ▸ hp))
      exact (hc.ring h l hl).congr (fun p hp ↦ Function.update_of_ne (hout hp) _ _)
        fun p hp ↦ Function.update_of_ne (hout hp) _ _
  · by_cases hne : h = x
    · by_cases hne' : h' = x
      · exact hne.trans hne'.symm
      · rw [hne, Function.update_self] at hl
        rw [Function.update_of_ne hne'] at hl'
        cases hl
        rw [hne, List.mem_singleton] at hp
        exact absurd (hx h' l' hl' (hp ▸ hp')) hne'
    · rw [Function.update_of_ne hne] at hl
      by_cases hne' : h' = x
      · rw [hne', Function.update_self] at hl'
        cases hl'
        rw [hne', List.mem_singleton] at hp'
        exact absurd (hx h l hl (hp' ▸ hp)) hne
      · rw [Function.update_of_ne hne'] at hl'
        exact hc.apart h h' l l' p hl hl' hp hp'

/-- Forgetting a list. -/
theorem forget (hc : c.Holds ls) (h : Nat) : c.Holds (Function.update ls h none) := by
  have hold {h' : Nat} {m : List Nat} (hm : Function.update ls h none h' = some m) :
      ls h' = some m := by
    by_cases hne : h' = h
    · rw [hne, Function.update_self] at hm
      cases hm
    · rwa [Function.update_of_ne hne] at hm
  exact ⟨fun h' m hm ↦ hc.ring h' m (hold hm),
    fun h₁ h₂ m₁ m₂ p hm₁ hm₂ ↦ hc.apart h₁ h₂ m₁ m₂ p (hold hm₁) (hold hm₂)⟩

end Holds

end Links

/-! ### Sequences of operations -/

/-- The operations of `list.h`. -/
inductive ListOp
  | init (list : Nat)
  | append (tail elem : Nat)
  | insert (head elem : Nat)
  | seqAdd (list elem : Nat)
  | delete (elem : Nat)
  | remove (elem : Nat)

/-- The function of an operation. -/
def ListOp.run (fuel : Nat) : ListOp → Links Nat → Option (Links Nat)
  | .init list => listInit list
  | .append tail elem => listAppend tail elem
  | .insert head elem => listInsert head elem
  | .seqAdd list elem => listSeqAdd fuel list elem
  | .delete elem => listDelete elem
  | .remove elem => listRemove elem

/-- One operation after another. -/
def runListOps (fuel : Nat) : List ListOp → Links Nat → Option (Links Nat)
  | [], c => some c
  | op :: ops, c => (op.run fuel c).bind (runListOps fuel ops)

namespace ListMap

/-- The node is in no list; it may be the head of one without nodes. -/
def Spare (ls : ListMap) (x : Nat) : Prop := ∀ h l, ls h = some l → x ∈ h :: l → h = x ∧ l = []

/-- A list changes, and takes its nodes from what is spare. -/
def put (ls : ListMap) (x h : Nat) (l : List Nat) : ListMap :=
  Function.update (Function.update ls x none) h (some l)

/-- What an operation makes of lists, as lists: `init` needs a node that is in no list of another
head, and a node is added where it is in none. -/
inductive Step (live : Nat → Prop) (ls : ListMap) : ListOp → ListMap → Prop
  | init {x : Nat} (node : live x) (own : ∀ h l, ls h = some l → x ∈ h :: l → h = x) :
      Step live ls (.init x) (Function.update ls x (some []))
  | append {h x : Nat} {l : List Nat} (list : ls h = some l) (node : live x)
      (spare : ls.Spare x) (other : x ≠ h) :
      Step live ls (.append h x) (ls.put x h (l ++ [x]))
  | insert {h x : Nat} {l : List Nat} (list : ls h = some l) (node : live x)
      (spare : ls.Spare x) (other : x ≠ h) :
      Step live ls (.insert h x) (ls.put x h (x :: l))
  | seqAdd {h x : Nat} {l : List Nat} (list : ls h = some l) (node : live x)
      (spare : ls.Spare x) (other : x ≠ h) :
      Step live ls (.seqAdd h x)
        (ls.put x h (l.takeWhile (· < x) ++ x :: l.dropWhile (· < x)))
  | delete {h x : Nat} {l : List Nat} (list : ls h = some l) (mem : x ∈ l) :
      Step live ls (.delete x)
        (Function.update (Function.update ls h (some (l.erase x))) x (some []))
  | remove {h x : Nat} {l : List Nat} (list : ls h = some l) (mem : x ∈ l) :
      Step live ls (.remove x) (Function.update ls h (some (l.erase x)))

/-- What a sequence of operations makes of lists. -/
inductive Steps (live : Nat → Prop) : ListMap → List ListOp → ListMap → Prop
  | nil (ls : ListMap) : Steps live ls [] ls
  | cons {ls ls' ls'' : ListMap} {op : ListOp} {ops : List ListOp} :
      Step live ls op ls' → Steps live ls' ops ls'' → Steps live ls (op :: ops) ls''

/-- One list and no other. -/
def single (h : Nat) (l : List Nat) : ListMap := Function.update (fun _ ↦ none) h (some l)

/-- The one list that there is has its head. -/
theorem single_self (h : Nat) (l : List Nat) : single h l h = some l := Function.update_self _ _ _

variable {h h' x : Nat} {l l' m : List Nat}

/-- No other node is a head. -/
theorem eq_of_single (hm : single h l h' = some m) : h' = h ∧ m = l := by
  unfold single at hm
  by_cases hne : h' = h
  · rw [hne, Function.update_self] at hm
    exact ⟨hne, (Option.some.inj hm).symm⟩
  · rw [Function.update_of_ne hne] at hm
    cases hm

/-- A node that is not in the list is spare. -/
theorem single_spare (hx : x ∉ h :: l) : (single h l).Spare x := by
  intro h' m hm hmem
  obtain ⟨rfl, rfl⟩ := eq_of_single hm
  exact absurd hmem hx

/-- The one list may have its elements replaced. -/
theorem single_put (hx : x ≠ h) : (single h l).put x h l' = single h l' := by
  unfold put single
  rw [Function.update_comm hx.symm, Function.update_idem]
  have hnone : Function.update (fun _ ↦ none) x none = (fun _ ↦ none : ListMap) :=
    Function.update_eq_self x _
  rw [hnone]

/-- Appending to the only list. -/
theorem Step.append_single {live : Nat → Prop} (hlive : live x) (hx : x ∉ h :: l) :
    Step live (single h l) (.append h x) (single h (l ++ [x])) := by
  have hne : x ≠ h := fun heq ↦ hx (heq ▸ List.mem_cons_self)
  have hstep : Step live (single h l) (.append h x) ((single h l).put x h (l ++ [x])) :=
    .append (single_self h l) hlive (single_spare hx) hne
  rwa [single_put hne] at hstep

end ListMap

namespace Links

variable {c c' : Links Nat} {ls ls' : ListMap} {h x : Nat} {l : List Nat}

private theorem loose_of_spare (hx : ls.Spare x) : ListMap.Loose (Function.update ls x none) x := by
  intro h l hl hmem
  by_cases hne : h = x
  · rw [hne, Function.update_self] at hl
    cases hl
  · rw [Function.update_of_ne hne] at hl
    exact hne (hx h l hl hmem).1

private theorem Holds.add (l₁ l₂ : List Nat) (hc : c.Holds ls) (hl : ls h = some (l₁ ++ l₂))
    (hhas : c.Has x) (hx : ls.Spare x) (hxh : x ≠ h) :
    ∃ c', listLink (l₁.getLast?.getD h) (l₂.head?.getD h) x c = some c' ∧
      c'.Holds (ls.put x h (l₁ ++ x :: l₂)) ∧ ∀ p, c.Has p → c'.Has p := by
  have hl' : Function.update ls x none h = some (l₁ ++ l₂) := by
    rw [Function.update_of_ne hxh.symm]
    exact hl
  obtain ⟨hrun, hholds⟩ := (hc.forget x).link l₁ l₂ hl' (loose_of_spare hx) hhas
  exact ⟨_, hrun, hholds, fun p hp ↦ hp.link x⟩

-- The walk of `List_SeqAdd` stops at the first node behind the place of the new one.
private theorem seek (l : List Nat) (hx : x ∉ l) :
    eachOf (fun (_ : Unit) cursor ↦ if x < cursor then .inr cursor else .inl ()) (fun _ ↦ h) l () =
      (l.dropWhile (· < x)).head?.getD h := by
  induction l with
  | nil => rfl
  | cons y l ih =>
    obtain ⟨hy, hl⟩ := not_or.mp (fun hor ↦ hx (List.mem_cons.mpr hor))
    unfold eachOf
    by_cases hlt : x < y
    · rw [if_pos hlt, List.dropWhile_cons_of_neg (by simp; omega)]
      rfl
    · rw [if_neg hlt, List.dropWhile_cons_of_pos (by simp; omega)]
      exact ih hl

private theorem erase_eq {l₁ l₂ : List Nat} (hnodup : (h :: (l₁ ++ x :: l₂)).Nodup) :
    (l₁ ++ x :: l₂).erase x = l₁ ++ l₂ := by
  have hx : x ∉ l₁ := fun hmem ↦
    (List.nodup_append.mp (List.nodup_cons.mp hnodup).2).2.2 x hmem x List.mem_cons_self rfl
  rw [List.erase_append_right _ hx, List.erase_cons_head]

/-- `List_Delete` is `List_Remove` with a node that is linked to itself at the end. -/
theorem listDelete_eq (x : Nat) (c : Links Nat) :
    listDelete x c = (listRemove x c).bind (listInit x) := by
  unfold listDelete listRemove
  simp only [Option.bind_eq_bind, Option.bind_assoc]

/-- Each operation does to the lists in memory what it does to lists. -/
theorem Holds.step {live : Nat → Prop} {op : ListOp} (hc : c.Holds ls)
    (hlive : ∀ p, live p → c.Has p) (hstep : ListMap.Step live ls op ls') :
    ∃ c', c'.Holds ls' ∧ (∀ p, c.Has p → c'.Has p) ∧
      ∃ bound, ∀ fuel, bound ≤ fuel → op.run fuel c = some c' := by
  cases hstep with
  | init hx own =>
    obtain ⟨c', hrun, hholds, hkeep⟩ := hc.init own (hlive _ hx)
    exact ⟨c', hholds, hkeep, 0, fun _ _ ↦ hrun⟩
  | @append h x l hl hx spare other =>
    obtain ⟨c', hrun, hholds, hkeep⟩ :=
      hc.add l [] ((List.append_nil l).symm ▸ hl) (hlive x hx) spare other
    refine ⟨c', hholds, hkeep, 0, fun _ _ ↦ ?_⟩
    change listAppend h x c = some c'
    unfold listAppend
    rw [(hc.ring h l hl).prev_head]
    exact hrun
  | @insert h x l hl hx spare other =>
    obtain ⟨c', hrun, hholds, hkeep⟩ := hc.add [] l hl (hlive x hx) spare other
    refine ⟨c', hholds, hkeep, 0, fun _ _ ↦ ?_⟩
    change listInsert h x c = some c'
    unfold listInsert
    rw [(hc.ring h l hl).next_head]
    exact hrun
  | @seqAdd h x l hl hx spare other =>
    have hxl : x ∉ l := fun hmem ↦ other (spare h l hl (List.mem_cons_of_mem _ hmem)).1.symm
    have hsplit : l.takeWhile (· < x) ++ l.dropWhile (· < x) = l := List.takeWhile_append_dropWhile
    obtain ⟨c', hrun, hholds, hkeep⟩ :=
      hc.add _ _ (hsplit.symm ▸ hl) (hlive x hx) spare other
    refine ⟨c', hholds, hkeep, l.length + 1, fun fuel hfuel ↦ ?_⟩
    have hring := hc.ring h l hl
    change listSeqAdd fuel h x c = some c'
    unfold listSeqAdd
    rw [hring.walk _ _ () hfuel, seek l hxl, Option.bind_eq_bind, Option.bind_some]
    unfold listAppend
    rw [(Ring.joined (l.takeWhile (· < x)) (l.dropWhile (· < x)) (hsplit.symm ▸ hring)).2]
    exact hrun
  | @delete h x l hl hmem =>
    obtain ⟨l₁, l₂, rfl⟩ := List.append_of_mem hmem
    have hring := hc.ring h _ hl
    obtain ⟨hrun, hholds⟩ := hc.unlink l₁ l₂ hl
    have hloose := hc.loose_of_unlink l₁ l₂ hl
    have hhas := hring.has (List.mem_cons_of_mem _ hmem)
    obtain ⟨c', hinit, hholds', hkeep⟩ := hholds.init
      (fun h' m hm hx ↦ absurd hx (hloose h' m hm)) hhas.unlink
    refine ⟨c', ?_, fun p hp ↦ hkeep p hp.unlink, 0, fun _ _ ↦ ?_⟩
    · rw [erase_eq hring.nodup]
      exact hholds'
    · change listDelete x c = some c'
      rw [listDelete_eq, hrun]
      exact hinit
  | @remove h x l hl hmem =>
    obtain ⟨l₁, l₂, rfl⟩ := List.append_of_mem hmem
    obtain ⟨hrun, hholds⟩ := hc.unlink l₁ l₂ hl
    rw [erase_eq (hc.ring h _ hl).nodup]
    exact ⟨_, hholds, fun p hp ↦ hp.unlink, 0, fun _ _ ↦ hrun⟩

/-! ### What is read -/

/-- `LIST_EMPTY` tells whether the list has no nodes. -/
theorem Ring.listEmpty_eq (hring : c.Ring h l) : listEmpty h c = some l.isEmpty := by
  unfold listEmpty
  rw [hring.next_head]
  cases l with
  | nil => simp
  | cons x l =>
    have hne : x ≠ h := fun heq ↦
      (List.nodup_cons.mp hring.nodup).1 (heq ▸ List.mem_cons_self)
    simp [hne]

/-- `LIST_SINGLE` tells whether the list has one node. -/
theorem Ring.listSingle_eq (hring : c.Ring h l) :
    listSingle h c = some (decide (l.length = 1)) := by
  unfold listSingle
  rw [hring.listEmpty_eq, hring.next_head, hring.prev_head]
  cases l with
  | nil => rfl
  | cons x l =>
    cases l with
    | nil => simp
    | cons y l =>
      obtain ⟨hx, -⟩ := List.nodup_cons.mp (List.nodup_cons.mp hring.nodup).2
      have hlast : ∃ z ∈ y :: l, (x :: y :: l).getLast? = some z := by
        refine ⟨(y :: l).getLast (List.cons_ne_nil _ _), List.getLast_mem _, ?_⟩
        rw [List.getLast?_cons_cons, List.getLast?_eq_some_getLast]
      obtain ⟨z, hz, hlast⟩ := hlast
      have hne : x ≠ z := fun heq ↦ hx (heq ▸ hz)
      rw [hlast]
      simp [hne]

/-- `List_Count` counts the nodes. -/
theorem Ring.listCount_eq (hring : c.Ring h l) {fuel : Nat} (hfuel : l.length < fuel) :
    listCount fuel h c = some l.length := by
  have hcount (l : List Nat) (n : Nat) :
      eachOf (fun (count : Nat) (_ : Nat) ↦ (.inl (count + 1) : Nat ⊕ Nat)) id l n =
        n + l.length := by
    induction l generalizing n with
    | nil => rfl
    | cons x l ih =>
      refine (ih (n + 1)).trans ?_
      rw [List.length_cons]
      omega
  unfold listCount
  rw [hring.walk _ _ 0 hfuel, hcount, Nat.zero_add]

/-- `List_Index` finds the node at a position, and nothing at others. -/
theorem Ring.listIndex_eq (hring : c.Ring h l) (index : Int) {fuel : Nat}
    (hfuel : l.length < fuel) :
    listIndex fuel h index c = some (if index < 0 then none else l[index.toNat]?) := by
  have hindex (l : List Nat) (n : Nat) :
      eachOf (fun (count : Nat) cursor ↦
          if (count : Int) = index then .inr (some cursor) else .inl (count + 1))
          (fun _ ↦ none) l n =
        if index < n then none else l[(index - n).toNat]? := by
    induction l generalizing n with
    | nil =>
      unfold eachOf
      split <;> rfl
    | cons x l ih =>
      unfold eachOf
      by_cases hn : (n : Int) = index
      · rw [if_pos hn, if_neg (by omega), show (index - n).toNat = 0 by omega]
        rfl
      · rw [if_neg hn]
        refine (ih (n + 1)).trans ?_
        by_cases hlt : index < n
        · rw [if_pos hlt, if_pos (by omega)]
        · rw [if_neg hlt, if_neg (by omega),
            show (index - n).toNat = (index - (n + 1 : Nat)).toNat + 1 by omega]
          rfl
  unfold listIndex
  rw [hring.walk _ _ 0 hfuel, hindex]
  simp

end Links

open Links

/-- From memory that holds lists, every sequence of operations of `list.h` that makes sense for them
runs without following a pointer to no node, and the memory holds at the end what the sequence makes
of the lists: other lists stay as they are. What `LIST_EMPTY`, `LIST_SINGLE`, `List_Count` and
`List_Index` read is true of the lists. -/
theorem list_operations_refine {live : Nat → Prop} {ls ls' : ListMap} {ops : List ListOp}
    {c : Links Nat} (hsteps : ListMap.Steps live ls ops ls') (hc : c.Holds ls)
    (hlive : ∀ p, live p → c.Has p) :
    ∃ c', (∃ bound, ∀ fuel, bound ≤ fuel → runListOps fuel ops c = some c') ∧ c'.Holds ls' ∧
      ∀ h l, ls' h = some l → listEmpty h c' = some l.isEmpty ∧
        listSingle h c' = some (decide (l.length = 1)) ∧
        ∀ fuel, l.length < fuel → listCount fuel h c' = some l.length ∧
          ∀ index : Int, listIndex fuel h index c' =
            some (if index < 0 then none else l[index.toNat]?) := by
  induction hsteps generalizing c with
  | nil ls =>
    refine ⟨c, ⟨0, fun _ _ ↦ rfl⟩, hc, fun h l hl ↦ ?_⟩
    have hring := hc.ring h l hl
    exact ⟨hring.listEmpty_eq, hring.listSingle_eq,
      fun fuel hfuel ↦ ⟨hring.listCount_eq hfuel, fun index ↦ hring.listIndex_eq index hfuel⟩⟩
  | cons hstep _ ih =>
    obtain ⟨c₁, hholds, hkeep, bound, hrun⟩ := hc.step hlive hstep
    obtain ⟨c', ⟨bound', hrest⟩, hend⟩ := ih hholds fun p hp ↦ hkeep p (hlive p hp)
    refine ⟨c', ⟨max bound bound', fun fuel hfuel ↦ ?_⟩, hend⟩
    unfold runListOps
    rw [hrun fuel (le_trans (Nat.le_max_left _ _) hfuel)]
    exact hrest fuel (le_trans (Nat.le_max_right _ _) hfuel)

private def tenNodes : Links Nat :=
  ⟨fun p ↦ if p < 10 then some 0 else none, fun p ↦ if p < 10 then some 0 else none⟩

/-- Two elements that have been appended are counted. -/
theorem list_operations_refine_sample :
    ∃ c' : Links Nat, c'.Holds (ListMap.single 4 [3, 7]) ∧ listCount 3 4 c' = some 2 := by
  have hseqAdd : ListMap.Step (· < 10) (.single 4 [7]) (.seqAdd 4 3)
      ((ListMap.single 4 [7]).put 3 4 [3, 7]) :=
    .seqAdd (ListMap.single_self 4 [7]) (by decide) (ListMap.single_spare (by decide)) (by decide)
  rw [ListMap.single_put (by decide)] at hseqAdd
  have hsteps : ListMap.Steps (· < 10) (fun _ ↦ none) [.init 4, .append 4 7, .seqAdd 4 3]
      (.single 4 [3, 7]) :=
    .cons (.init (by decide) nofun)
      (.cons (.append_single (by decide) (by decide)) (.cons hseqAdd (.nil _)))
  obtain ⟨c', -, hholds, hread⟩ := list_operations_refine (c := tenNodes) hsteps
    ⟨nofun, nofun⟩ (fun p hp ↦ ⟨by simp [tenNodes, hp], by simp [tenNodes, hp]⟩)
  exact ⟨c', hholds, ((hread 4 [3, 7] (ListMap.single_self 4 _)).2.2 3 (by decide)).1⟩

end Q2Admin
