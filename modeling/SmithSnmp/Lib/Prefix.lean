import Mathlib.Data.List.Sort
import Mathlib.Data.Set.Insert

/-!
# Prefix-Minimal Elements

The elements of a set of lists that have no proper prefix in it. A set and its prefix-minimal
elements cover the same lists, and adding a list changes them in one of two ways: not at all
when the set covers the list already (`prefixMinimal_insert_of_cover`), and otherwise by the
list, in the place of the elements that it covers (`prefixMinimal_insert_of_not_cover`).
-/

namespace SmithSnmp.Lib

variable {α : Type}

variable {S : Set (List α)} {x : List α}

/-- The elements of `S` without a proper prefix in `S`. -/
def prefixMinimal (S : Set (List α)) : Set (List α) := {v | v ∈ S ∧ ∀ w ∈ S, w <+: v → w = v}

/-- Every element of a set has a prefix that is minimal in it. -/
theorem exists_prefixMinimal {w : List α} (hw : w ∈ S) : ∃ v ∈ prefixMinimal S, v <+: w := by
  induction hn : w.length using Nat.strong_induction_on generalizing w with
  | _ n ih =>
    by_cases hmin : ∀ u ∈ S, u <+: w → u = w
    · exact ⟨w, ⟨hw, hmin⟩, List.prefix_refl w⟩
    · push Not at hmin
      obtain ⟨u, hu, huw, hne⟩ := hmin
      have hlt : u.length < n :=
        hn ▸ lt_of_le_of_ne huw.length_le fun hlen => hne (huw.eq_of_length hlen)
      obtain ⟨v, hv, hvu⟩ := ih u.length hlt hu rfl
      exact ⟨v, hv, hvu.trans huw⟩

/-- A list has a prefix in a set if and only if it has one among the minimal elements. -/
theorem cover_prefixMinimal_iff : (∃ v ∈ prefixMinimal S, v <+: x) ↔ ∃ w ∈ S, w <+: x := by
  constructor
  · rintro ⟨v, hv, hvx⟩
    exact ⟨v, hv.1, hvx⟩
  · rintro ⟨w, hw, hwx⟩
    obtain ⟨v, hv, hvw⟩ := exists_prefixMinimal hw
    exact ⟨v, hv, hvw.trans hwx⟩

theorem eq_of_prefix_of_prefix {a b : List α} (hab : a <+: b) (hba : b <+: a) : a = b :=
  hab.eq_of_length (le_antisymm hab.length_le hba.length_le)

/-- Adding a list that is covered changes nothing. -/
theorem prefixMinimal_insert_of_cover (hx : ∃ v ∈ prefixMinimal S, v <+: x) :
    prefixMinimal (insert x S) = prefixMinimal S := by
  obtain ⟨v, ⟨hvS, hvmin⟩, hvx⟩ := hx
  ext w
  constructor
  · rintro ⟨hw, hmin⟩
    refine ⟨?_, fun u hu => hmin u (.inr hu)⟩
    rcases hw with rfl | hw
    · exact hmin v (.inr hvS) hvx ▸ hvS
    · exact hw
  · rintro ⟨hw, hmin⟩
    refine ⟨.inr hw, ?_⟩
    rintro u (rfl | hu) huw
    · obtain rfl := hmin v hvS (hvx.trans huw)
      exact eq_of_prefix_of_prefix huw hvx
    · exact hmin u hu huw

theorem prefixMinimal_insert_of_not_cover (hx : ¬ ∃ v ∈ prefixMinimal S, v <+: x) :
    prefixMinimal (insert x S) = insert x {v ∈ prefixMinimal S | ¬ x <+: v} := by
  have hxS : ∀ w ∈ S, ¬ w <+: x := fun w hw hwx => hx (cover_prefixMinimal_iff.mpr ⟨w, hw, hwx⟩)
  ext w
  constructor
  · rintro ⟨rfl | hw, hmin⟩
    · exact .inl rfl
    · refine .inr ⟨⟨hw, fun u hu => hmin u (.inr hu)⟩, fun hxw => ?_⟩
      exact hxS w hw (hmin x (.inl rfl) hxw ▸ List.prefix_refl x)
  · rintro (rfl | ⟨⟨hw, hmin⟩, hxw⟩)
    · refine ⟨.inl rfl, ?_⟩
      rintro u (rfl | hu) huw
      · rfl
      · exact absurd huw (hxS u hu)
    · refine ⟨.inr hw, ?_⟩
      rintro u (rfl | hu) huw
      · exact absurd huw hxw
      · exact hmin u hu huw

end SmithSnmp.Lib
