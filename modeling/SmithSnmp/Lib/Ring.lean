import Mathlib.Data.List.Chain
import Mathlib.Data.List.Nodup
import Mathlib.Logic.Function.Basic

/-!
# Rings of Linked Nodes

Circular doubly linked lists whose nodes lie inside other objects. A memory of nodes maps an
address to a next and a previous address; an access to an address that is not live has no result.
A ring is a head with its members, in the order of the next pointers.

The memory holds many rings at once, one for each index of a family, and no node is in two of
them. The two edits, linking a node in and unlinking one, change one ring of the family and leave
the others alone.

## Main results

* `Rings.insertBetween`: linking a live node in at any place of a ring.
* `Rings.unlink`: unlinking any member.
* `Rings.addRing`, `Rings.setLive`: new heads, and nodes outside the rings.
-/

namespace SmithSnmp.Lib

open List Function

/-- A memory of nodes. The null pointer is `none`. -/
structure Links (α : Type) where
  /-- the addresses of nodes that exist -/
  live : α → Bool
  next : α → Option α
  prev : α → Option α

namespace Links

variable {α : Type} [DecidableEq α]

/-- The forward pointer of a live node, to be followed. -/
def readNext (m : Links α) (a : α) : Option α := if m.live a then m.next a else none

/-- The backward pointer of a live node, to be followed. -/
def readPrev (m : Links α) (a : α) : Option α := if m.live a then m.prev a else none

/-- A write to the forward pointer of a live node. -/
def setNext (m : Links α) (a : α) (b : Option α) : Option (Links α) :=
  if m.live a then some { m with next := update m.next a b } else none

/-- A write to the backward pointer of a live node. -/
def setPrev (m : Links α) (a : α) (b : Option α) : Option (Links α) :=
  if m.live a then some { m with prev := update m.prev a b } else none

/-- A node that points at itself both ways. -/
def initNode (m : Links α) (a : α) : Option (Links α) :=
  (m.setPrev a (some a)).bind fun m => m.setNext a (some a)

/-- A node between two others. -/
def insertBetween (m : Links α) (new prev next : α) : Option (Links α) := do
  let m ← m.setPrev next (some new)
  let m ← m.setNext new (some next)
  let m ← m.setPrev new (some prev)
  m.setNext prev (some new)

/-- The neighbours of a node point at each other, the node nowhere. -/
def unlink (m : Links α) (a : α) : Option (Links α) := do
  let m ← m.setPrev (← m.readNext a) (some (← m.readPrev a))
  let m ← m.setNext (← m.readPrev a) (some (← m.readNext a))
  let m ← m.setPrev a none
  m.setNext a none

/-- A node comes to exist, with unknown contents, or stops to exist. -/
def setLive (m : Links α) (a : α) (b : Bool) : Links α :=
  { m with live := update m.live a b }

/-- The two nodes point at each other. -/
def Linked (m : Links α) (a b : α) : Prop := m.next a = some b ∧ m.prev b = some a

end Links

/-- The ring of a head with its members. -/
structure Ring {α : Type} (m : Links α) (head : α) (xs : List α) : Prop where
  /-- every node exists -/
  live : ∀ a ∈ head :: xs, m.live a
  /-- no node stands in it twice -/
  nodup : (head :: xs).Nodup
  /-- neighbours point at each other, the last node and the head included -/
  chain : (head :: xs ++ [head]).IsChain m.Linked

variable {α : Type} {m m' : Links α} {head x : α} {xs l r : List α}

/-- The node where the part of a ring up to a place ends. -/
def lastNode (head : α) (l : List α) : α := l.getLastD head

/-- The node where the part of a ring from a place on begins: the head behind the last member. -/
def firstNode (head : α) (r : List α) : α := r.headD head

@[simp] theorem firstNode_nil (head : α) : firstNode head [] = head := rfl

@[simp] theorem firstNode_cons (head a : α) (r : List α) : firstNode head (a :: r) = a := rfl

@[simp] theorem lastNode_nil (head : α) : lastNode head [] = head := rfl

@[simp] theorem lastNode_concat (head a : α) (l : List α) : lastNode head (l ++ [a]) = a :=
  getLastD_concat

theorem head?_concat (head : α) (r : List α) :
    (r ++ [head]).head? = some (firstNode head r) := by
  cases r <;> rfl

/-! ### One ring -/

/-- Links read the forward pointers of all nodes but the last, and the backward pointers of all
but the first. -/
theorem isChain_linked_congr (h : xs.IsChain m.Linked)
    (hnext : ∀ a ∈ xs.dropLast, m'.next a = m.next a)
    (hprev : ∀ a ∈ xs.tail, m'.prev a = m.prev a) : xs.IsChain m'.Linked := by
  induction xs with
  | nil => exact isChain_nil
  | cons a xs ih =>
    cases xs with
    | nil => exact isChain_singleton a
    | cons b xs =>
      obtain ⟨⟨hab, hba⟩, hrest⟩ := isChain_cons_cons.mp h
      refine isChain_cons_cons.mpr ⟨⟨?_, ?_⟩, ih hrest ?_ ?_⟩
      · rw [hnext a (by simp), hab]
      · rw [hprev b (by simp), hba]
      · exact fun c hc => hnext c (by simp [hc])
      · exact fun c hc => hprev c (mem_of_mem_tail hc)

/-- A ring depends on its own nodes only. -/
theorem Ring.congr (h : Ring m head xs) (hlive : ∀ a ∈ head :: xs, m'.live a = m.live a)
    (hnext : ∀ a ∈ head :: xs, m'.next a = m.next a)
    (hprev : ∀ a ∈ head :: xs, m'.prev a = m.prev a) : Ring m' head xs where
  live a ha := (hlive a ha).trans (h.live a ha)
  nodup := h.nodup
  chain := by
    refine isChain_linked_congr h.chain (fun a ha => hnext a ?_) fun a ha => hprev a ?_
    · rwa [dropLast_concat] at ha
    · simpa [or_comm] using ha

/-- A ring cut at a place: the part up to it, the part behind it, and the two nodes there. -/
theorem isChain_cut :
    (head :: (l ++ r) ++ [head]).IsChain m.Linked ↔
      (head :: l).IsChain m.Linked ∧ (r ++ [head]).IsChain m.Linked ∧
        m.Linked (lastNode head l) (firstNode head r) := by
  have hcut : head :: (l ++ r) ++ [head] = (head :: l) ++ (r ++ [head]) := by simp
  rw [hcut, isChain_append, getLast?_cons, head?_concat]
  simp [lastNode]

/-- The part up to the cut ends with the node before it. -/
theorem dropLast_concat_lastNode (head : α) (l : List α) :
    (head :: l).dropLast ++ [lastNode head l] = head :: l := by
  rcases eq_nil_or_concat l with rfl | ⟨l, a, rfl⟩
  · rfl
  · rw [concat_eq_append, lastNode_concat, ← cons_append, dropLast_concat]

theorem lastNode_mem (head : α) (l r : List α) : lastNode head l ∈ head :: (l ++ r) := by
  rw [← cons_append, ← dropLast_concat_lastNode head l]
  simp

theorem firstNode_mem (head : α) (l r : List α) : firstNode head r ∈ head :: (l ++ r) := by
  cases r <;> simp

theorem mem_middle {a : α} : a ∈ head :: (l ++ x :: r) ↔ a = x ∨ a ∈ head :: (l ++ r) := by
  simp only [mem_cons, mem_append]
  tauto

/-- The node before the cut is at no other place. -/
theorem ne_lastNode (h : (head :: (l ++ r)).Nodup) {a : α}
    (ha : a ∈ (head :: l).dropLast ∨ a ∈ r) : a ≠ lastNode head l := by
  rw [← cons_append, ← dropLast_concat_lastNode] at h
  grind

/-- The node behind the cut is at no other place. -/
theorem ne_firstNode (h : (head :: (l ++ r)).Nodup) {a : α}
    (ha : a ∈ l ∨ a ∈ (r ++ [head]).tail) : a ≠ firstNode head r := by
  cases r <;> simp at ha ⊢ <;> grind

/-- The two pointers across a cut. -/
theorem Ring.seam (h : Ring m head (l ++ r)) :
    m.readNext (lastNode head l) = some (firstNode head r) ∧
      m.readPrev (firstNode head r) = some (lastNode head l) := by
  obtain ⟨-, -, hnext, hprev⟩ := isChain_cut.mp h.chain
  rw [Links.readNext, if_pos (h.live _ (lastNode_mem head l r)), Links.readPrev,
    if_pos (h.live _ (firstNode_mem head l r))]
  exact ⟨hnext, hprev⟩

/-- An edit at a cut: only the two pointers across the cut change, and both parts stay. -/
theorem isChain_parts (m' : Links α) (hnodup : (head :: (l ++ r)).Nodup)
    (hleft : (head :: l).IsChain m.Linked) (hright : (r ++ [head]).IsChain m.Linked)
    (hnext : ∀ a ∈ head :: (l ++ r), a ≠ lastNode head l → m'.next a = m.next a)
    (hprev : ∀ a ∈ head :: (l ++ r), a ≠ firstNode head r → m'.prev a = m.prev a) :
    (head :: l).IsChain m'.Linked ∧ (r ++ [head]).IsChain m'.Linked := by
  constructor
  · refine isChain_linked_congr hleft (fun a ha => hnext a ?_ (ne_lastNode hnodup (.inl ha)))
      fun a ha => hprev a (by simp_all) (ne_firstNode hnodup (.inl ha))
    exact mem_append_left r (dropLast_subset _ ha)
  · refine isChain_linked_congr hright (fun a ha => ?_)
      fun a ha => hprev a ?_ (ne_firstNode hnodup (.inr ha))
    · rw [dropLast_concat] at ha
      exact hnext a (by simp [ha]) (ne_lastNode hnodup (.inr ha))
    · have := mem_of_mem_tail ha
      grind

section Edits

variable [DecidableEq α]

/-- The memory after a node has been linked in. -/
theorem Links.insertBetween_effect {a b : α} (hx : m.live x) (ha : m.live a) (hb : m.live b) :
    ∃ m', m.insertBetween x a b = some m' ∧ m'.live = m.live ∧
      (∀ y, m'.next y = if y = a then some x else if y = x then some b else m.next y) ∧
      ∀ y, m'.prev y = if y = x then some a else if y = b then some x else m.prev y := by
  refine ⟨⟨m.live, update (update m.next x (some b)) a (some x),
    update (update m.prev b (some x)) x (some a)⟩, ?_, rfl,
    fun y => by simp only [update_apply], fun y => by simp only [update_apply]⟩
  simp [Links.insertBetween, Links.setNext, Links.setPrev, hx, ha, hb]

/-- **Linking in.** A live node that is not in the ring goes to any place of it. -/
theorem Ring.insertBetween (h : Ring m head (l ++ r)) (hx : m.live x)
    (hout : x ∉ head :: (l ++ r)) :
    ∃ m', m.insertBetween x (lastNode head l) (firstNode head r) = some m' ∧
      m'.live = m.live ∧ Ring m' head (l ++ x :: r) ∧
      ∀ a, a ∉ head :: (l ++ x :: r) → m'.next a = m.next a ∧ m'.prev a = m.prev a := by
  obtain ⟨hleft, hright, -⟩ := isChain_cut.mp h.chain
  have hlast := lastNode_mem head l r
  have hfirst := firstNode_mem head l r
  have hold : ∀ a ∈ head :: (l ++ r), a ≠ x := fun a ha he => hout (he ▸ ha)
  obtain ⟨m', hm', hlive, hnext, hprev⟩ :=
    m.insertBetween_effect hx (h.live _ hlast) (h.live _ hfirst)
  obtain ⟨hl, hr⟩ := isChain_parts m' h.nodup hleft hright
    (fun a ha hne => by rw [hnext, if_neg hne, if_neg (hold a ha)])
    (fun a ha hne => by rw [hprev, if_neg (hold a ha), if_neg hne])
  refine ⟨m', hm', hlive, ⟨?_, ?_, ?_⟩, ?_⟩
  · intro a ha
    rw [hlive]
    rcases mem_middle.mp ha with rfl | ha
    · exact hx
    · exact h.live a ha
  · refine (perm_middle.cons head).nodup_iff.mpr ?_
    exact (List.Perm.swap x head _).nodup_iff.mpr (nodup_cons.mpr ⟨hout, h.nodup⟩)
  · refine isChain_cut.mpr ⟨hl, ?_, by simp [Links.Linked, hnext, hprev]⟩
    rw [cons_append, isChain_cons, head?_concat]
    refine ⟨?_, hr⟩
    rintro _ ⟨rfl⟩
    exact ⟨by rw [hnext, if_neg (hold _ hlast).symm, if_pos rfl],
      by rw [hprev, if_neg (hold _ hfirst), if_pos rfl]⟩
  · intro a ha
    obtain ⟨hne, ha⟩ := not_or.mp (mt mem_middle.mpr ha)
    have h1 : a ≠ lastNode head l := fun he => ha (he ▸ hlast)
    have h2 : a ≠ firstNode head r := fun he => ha (he ▸ hfirst)
    rw [hnext, if_neg h1, if_neg hne, hprev, if_neg hne, if_neg h2]
    exact ⟨rfl, rfl⟩

/-- The memory after a node has been unlinked from between two others. -/
theorem Links.unlink_effect {a b : α} (hx : m.live x) (ha : m.live a) (hb : m.live b)
    (hnext : m.next x = some b) (hprev : m.prev x = some a) (hxb : x ≠ b) :
    ∃ m', m.unlink x = some m' ∧ m'.live = m.live ∧
      (∀ y, m'.next y = if y = x then none else if y = a then some b else m.next y) ∧
      ∀ y, m'.prev y = if y = x then none else if y = b then some a else m.prev y := by
  refine ⟨⟨m.live, update (update m.next a (some b)) x none,
    update (update m.prev b (some a)) x none⟩, ?_, rfl,
    fun y => by simp only [update_apply], fun y => by simp only [update_apply]⟩
  simp [Links.unlink, Links.readNext, Links.readPrev, Links.setNext, Links.setPrev, hx, ha, hb,
    hnext, hprev, hxb]

/-- **Unlinking.** Any member leaves the ring. -/
theorem Ring.unlink (h : Ring m head (l ++ x :: r)) :
    ∃ m', m.unlink x = some m' ∧ m'.live = m.live ∧ Ring m' head (l ++ r) ∧
      ∀ a, a ∉ head :: (l ++ x :: r) → m'.next a = m.next a ∧ m'.prev a = m.prev a := by
  obtain ⟨hleft, hright, hlx⟩ := isChain_cut.mp h.chain
  rw [cons_append, isChain_cons, head?_concat] at hright
  obtain ⟨hxr, hright⟩ := hright
  have hsub : (head :: (l ++ r)).Sublist (head :: (l ++ x :: r)) := by simp
  have hlast := lastNode_mem head l r
  have hfirst := firstNode_mem head l r
  have hnodup : (x :: head :: (l ++ r)).Nodup :=
    (List.Perm.swap x head _).nodup_iff.mp ((perm_middle.cons head).nodup_iff.mp h.nodup)
  have hout : ∀ a ∈ head :: (l ++ r), a ≠ x := fun a ha he =>
    (nodup_cons.mp hnodup).1 (he ▸ ha)
  obtain ⟨m', hm', hlive, hnext, hprev⟩ := m.unlink_effect (h.live x (by simp))
    (h.live _ (hsub.subset hlast)) (h.live _ (hsub.subset hfirst)) (hxr _ rfl).1 hlx.2
    (hout _ hfirst).symm
  obtain ⟨hl, hr⟩ := isChain_parts m' (hnodup.sublist (sublist_cons_self _ _))
    hleft hright
    (fun a ha hne => by rw [hnext, if_neg (hout a ha), if_neg hne])
    (fun a ha hne => by rw [hprev, if_neg (hout a ha), if_neg hne])
  refine ⟨m', hm', hlive, ⟨?_, h.nodup.sublist hsub, ?_⟩, ?_⟩
  · intro a ha
    rw [hlive]
    exact h.live a (hsub.subset ha)
  · refine isChain_cut.mpr ⟨hl, hr, ?_, ?_⟩
    · rw [hnext, if_neg (hout _ hlast), if_pos rfl]
    · rw [hprev, if_neg (hout _ hfirst), if_pos rfl]
  · intro a ha
    have hne : ∀ b ∈ head :: (l ++ x :: r), a ≠ b := fun b hb he => ha (he ▸ hb)
    rw [hnext, if_neg (hne x (by simp)), if_neg (hne _ (hsub.subset hlast)), hprev,
      if_neg (hne x (by simp)), if_neg (hne _ (hsub.subset hfirst))]
    exact ⟨rfl, rfl⟩

end Edits

/-! ### Many rings -/

/-- The rings of the indices in `dom`. No node is in two of them. -/
structure Rings {ι : Type} (m : Links α) (dom : ι → Prop) (head : ι → α) (xs : ι → List α) :
    Prop where
  /-- each index has its ring -/
  ring : ∀ i, dom i → Ring m (head i) (xs i)
  /-- different rings have no common node -/
  apart : ∀ i j, dom i → dom j → i ≠ j → (head i :: xs i).Disjoint (head j :: xs j)

namespace Rings

variable {ι : Type} {dom : ι → Prop} {head : ι → α} {xs : ι → List α} {i : ι}

/-- Rings depend on their own nodes only. -/
theorem congr (h : Rings m dom head xs)
    (hm : ∀ i, dom i → ∀ a ∈ head i :: xs i,
      m'.live a = m.live a ∧ m'.next a = m.next a ∧ m'.prev a = m.prev a) :
    Rings m' dom head xs where
  ring i hi := (h.ring i hi).congr (fun a ha => (hm i hi a ha).1)
    (fun a ha => (hm i hi a ha).2.1) fun a ha => (hm i hi a ha).2.2
  apart := h.apart

theorem mono {dom' : ι → Prop} (h : Rings m dom head xs) (hdom : ∀ j, dom' j → dom j) :
    Rings m dom' head xs where
  ring j hj := h.ring j (hdom j hj)
  apart j k hj hk := h.apart j k (hdom j hj) (hdom k hk)

/-- A node outside all rings may come to exist or stop to exist. -/
theorem setLive [DecidableEq α] (h : Rings m dom head xs) (hx : ∀ j, dom j → x ∉ head j :: xs j)
    (b : Bool) : Rings (m.setLive x b) dom head xs := by
  refine h.congr fun j hj a ha => ⟨update_of_ne ?_ _ _, rfl, rfl⟩
  rintro rfl
  exact hx j hj ha

variable [DecidableEq ι]

/-- One ring is edited, and the nodes it had or gets are in no other ring. -/
theorem edit (h : Rings m dom head xs) (touched : List α) {ys : List α}
    (hring : Ring m' (head i) ys) (hlive : m'.live = m.live) (hys : head i :: ys ⊆ touched)
    (hkeep : ∀ a ∉ touched, m'.next a = m.next a ∧ m'.prev a = m.prev a)
    (hother : ∀ j, dom j → j ≠ i → (head j :: xs j).Disjoint touched) :
    Rings m' dom head (update xs i ys) where
  ring j hj := by
    by_cases hji : j = i
    · subst hji
      rwa [update_self]
    · rw [update_of_ne hji]
      have hout : ∀ a ∈ head j :: xs j, a ∉ touched := fun a ha hat => hother j hj hji ha hat
      exact (h.ring j hj).congr (fun a _ => by rw [hlive]) (fun a ha => (hkeep a (hout a ha)).1)
        fun a ha => (hkeep a (hout a ha)).2
  apart j k hj hk hjk := by
    by_cases hji : j = i
    · subst hji
      rw [update_self, update_of_ne (Ne.symm hjk)]
      exact fun a ha ha' => hother k hk (Ne.symm hjk) ha' (hys ha)
    · rw [update_of_ne hji]
      by_cases hki : k = i
      · subst hki
        rw [update_self]
        exact fun a ha ha' => hother j hj hji ha (hys ha')
      · rw [update_of_ne hki]
        exact h.apart j k hj hk hjk

omit [DecidableEq ι] in
/-- An empty ring outside all others is one of them. -/
theorem addRing (h : Rings m dom head xs) (hi : Ring m (head i) []) (hxs : xs i = [])
    (hout : ∀ j, dom j → head i ∉ head j :: xs j) :
    Rings m (fun j => j = i ∨ dom j) head xs where
  ring j hj := by
    rcases hj with rfl | hj
    · rwa [hxs]
    · exact h.ring j hj
  apart j k hj hk hjk := by
    rcases hj with rfl | hj <;> rcases hk with rfl | hk
    · exact absurd rfl hjk
    · simpa [hxs] using hout k hk
    · simpa [hxs] using hout j hj
    · exact h.apart j k hj hk hjk

variable [DecidableEq α]

/-- **Linking a node in** at any place of one of the rings. -/
theorem insertBetween (h : Rings m dom head xs) (hi : dom i) (hxs : xs i = l ++ r)
    (hx : m.live x) (hout : ∀ j, dom j → x ∉ head j :: xs j) :
    ∃ m', m.insertBetween x (lastNode (head i) l) (firstNode (head i) r) = some m' ∧
      m'.live = m.live ∧ Rings m' dom head (update xs i (l ++ x :: r)) := by
  obtain ⟨m', hm', hlive, hring, hkeep⟩ :=
    (hxs ▸ h.ring i hi).insertBetween hx (hxs ▸ hout i hi)
  refine ⟨m', hm', hlive, h.edit _ hring hlive (List.Subset.refl _) hkeep ?_⟩
  intro j hj hji a ha ha'
  rcases mem_middle.mp ha' with rfl | hmem
  · exact hout j hj ha
  · exact h.apart j i hj hi hji ha (hxs ▸ hmem)

/-- **Unlinking a member** of one of the rings. -/
theorem unlink (h : Rings m dom head xs) (hi : dom i) (hxs : xs i = l ++ x :: r) :
    ∃ m', m.unlink x = some m' ∧ m'.live = m.live ∧
      Rings m' dom head (update xs i (l ++ r)) := by
  obtain ⟨m', hm', hlive, hring, hkeep⟩ := (hxs ▸ h.ring i hi).unlink
  refine ⟨m', hm', hlive, h.edit (head i :: xs i) hring hlive ?_ (hxs ▸ hkeep)
    fun j hj hji => h.apart j i hj hi hji⟩
  rw [hxs]
  exact (List.Sublist.cons_cons _ (by simp)).subset

omit [DecidableEq ι] in
theorem initNode (h : Rings m dom head xs) (hlive : m.live x)
    (hout : ∀ j, dom j → x ∉ head j :: xs j) :
    ∃ m', m.initNode x = some m' ∧ m'.live = m.live ∧ Ring m' x [] ∧ Rings m' dom head xs := by
  refine ⟨⟨m.live, update m.next x (some x), update m.prev x (some x)⟩, ?_, rfl,
    ⟨by simpa using hlive, by simp, by simp [Links.Linked]⟩, h.congr fun j hj a ha => ?_⟩
  · simp [Links.initNode, Links.setNext, Links.setPrev, hlive]
  · have hne : a ≠ x := fun he => hout j hj (he ▸ ha)
    exact ⟨rfl, update_of_ne hne _ _, update_of_ne hne _ _⟩

end Rings

end SmithSnmp.Lib
