import Mathlib.Data.Set.NAry
import Mathlib.Order.Interval.Set.Basic
import SmithSnmp.Lib.Lex

/-!
# Successors in a Lexicographic Product

The lists with a head out of `D` and a tail out of `S` form the set `Set.image2 List.cons D S`. Its
least member behind a list `x :: xs` has the head `x` as long as `S` has a member behind `xs`, and
otherwise the next head and the least tail. These are the steps by which an iterator over several
dimensions moves on.

## Main results

* `isLeast_cons`: the least member.
* `isLeast_cons_kept`, `isLeast_cons_next`: the successor, with the same head or the next one.
* `cons_inter_eq_empty`: when there is none.
* `ahead_lt_ahead`: an ascending chain in a list comes to its end.
-/

namespace SmithSnmp.Lib

open List Set

variable {α : Type*} [LinearOrder α] {D : Set α} {S : Set (List α)} {x n : α} {xs s : List α}

/-- The least member has the least head and the least tail. -/
theorem isLeast_cons (hn : IsLeast D n) (hs : IsLeast S s) :
    IsLeast (image2 List.cons D S) (n :: s) := by
  refine ⟨mem_image2_of_mem hn.1 hs.1, ?_⟩
  rintro _ ⟨m, hm, t, ht, rfl⟩
  rcases (hn.2 hm).lt_or_eq with hlt | rfl
  · exact (cons_lt_cons_iff.mpr (.inl hlt)).le
  · exact cons_le_cons n (hs.2 ht)

/-- Every member is behind the empty list. -/
theorem cons_inter_nil : image2 List.cons D S ∩ Ioi [] = image2 List.cons D S := by
  refine inter_eq_left.mpr ?_
  rintro _ ⟨m, -, t, -, rfl⟩
  exact nil_lt_iff.mpr (cons_ne_nil m t)

/-- The members behind `x :: xs`: those with the head `x` and a tail behind `xs`, and those with a
greater head. -/
theorem mem_cons_inter_iff {l : List α} :
    l ∈ image2 List.cons D S ∩ Ioi (x :: xs) ↔
      ∃ m ∈ D, ∃ t ∈ S, l = m :: t ∧ (x < m ∨ (x = m ∧ xs < t)) := by
  constructor
  · rintro ⟨⟨m, hm, t, ht, rfl⟩, hlt⟩
    exact ⟨m, hm, t, ht, rfl, cons_lt_cons_iff.mp hlt⟩
  · rintro ⟨m, hm, t, ht, rfl, hlt⟩
    exact ⟨mem_image2_of_mem hm ht, cons_lt_cons_iff.mpr hlt⟩

/-- The head is kept as long as there is a tail behind. -/
theorem isLeast_cons_kept (hx : x ∈ D) (hs : IsLeast (S ∩ Ioi xs) s) :
    IsLeast (image2 List.cons D S ∩ Ioi (x :: xs)) (x :: s) := by
  obtain ⟨⟨hmem, hlt⟩, hleast⟩ := hs
  refine ⟨mem_cons_inter_iff.mpr ⟨x, hx, s, hmem, rfl, .inr ⟨rfl, hlt⟩⟩, fun l hl => ?_⟩
  obtain ⟨m, -, t, ht, rfl, hm | ⟨rfl, hxt⟩⟩ := mem_cons_inter_iff.mp hl
  · exact (cons_lt_cons_iff.mpr (.inl hm)).le
  · exact cons_le_cons x (hleast ⟨ht, hxt⟩)

/-- Without a tail behind, the next head comes with the least tail. -/
theorem isLeast_cons_next (hx : x ∈ D → S ∩ Ioi xs = ∅) (hn : IsLeast (D ∩ Ioi x) n)
    (hs : IsLeast S s) : IsLeast (image2 List.cons D S ∩ Ioi (x :: xs)) (n :: s) := by
  obtain ⟨⟨hmem, hlt⟩, hleast⟩ := hn
  refine ⟨mem_cons_inter_iff.mpr ⟨n, hmem, s, hs.1, rfl, .inl hlt⟩, fun l hl => ?_⟩
  obtain ⟨m, hm, t, ht, rfl, hxm | ⟨rfl, hxt⟩⟩ := mem_cons_inter_iff.mp hl
  · rcases (hleast ⟨hm, hxm⟩).lt_or_eq with hnm | rfl
    · exact (cons_lt_cons_iff.mpr (.inl hnm)).le
    · exact cons_le_cons n (hs.2 ht)
  · exact absurd (show t ∈ S ∩ Ioi xs from ⟨ht, hxt⟩) (hx hm ▸ notMem_empty t)

/-- Without a tail behind and without a next head, nothing is behind. -/
theorem cons_inter_eq_empty (hx : x ∈ D → S ∩ Ioi xs = ∅) (hD : D ∩ Ioi x = ∅) :
    image2 List.cons D S ∩ Ioi (x :: xs) = ∅ := by
  refine eq_empty_of_forall_notMem fun l hl => ?_
  obtain ⟨m, hm, t, ht, rfl, hxm | ⟨rfl, hxt⟩⟩ := mem_cons_inter_iff.mp hl
  · exact hD.subset ⟨hm, hxm⟩
  · exact (hx hm).subset ⟨ht, hxt⟩

/-! ### Ascending chains in a list -/

variable {β : Type*} [LinearOrder β]

/-- The number of members of a list behind `k`. -/
def ahead (K : List β) (k : β) : ℕ := K.countP fun k' => k < k'

/-- It gets smaller with every step of an ascending chain. -/
theorem ahead_lt_ahead {K : List β} {k c : β} (hkc : k < c) (hc : c ∈ K) :
    ahead K c < ahead K k := by
  have hle : ∀ l : List β, ahead l c ≤ ahead l k := by
    intro l
    refine countP_mono_left fun k' _ hk' => ?_
    simpa using hkc.trans (by simpa using hk')
  obtain ⟨l, r, rfl⟩ := append_of_mem hc
  have hl := hle l
  have hr := hle r
  simp only [ahead, countP_append, countP_cons] at hl hr ⊢
  simp only [lt_irrefl, hkc, decide_true, decide_false, if_true]
  simp only [Bool.false_eq_true, if_false]
  omega

end SmithSnmp.Lib
