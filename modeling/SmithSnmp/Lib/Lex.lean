import Mathlib.Data.List.Lex
import Mathlib.Order.Bounds.Basic

/-!
# Prefixes and the Lexicographic Order

General facts about lists over a linear order, compared lexicographically with a proper
prefix first. The lists that extend a given prefix form an interval of this order, and
two lists of which neither extends the other keep their order whatever is appended to
them. These two facts are what a search through a prefix tree relies on.

## Main results

* `append_lt_append_left_iff`: a common prefix does not decide a comparison.
* `append_lt_append_of_lt`: incomparable lists keep their order under extension.
* `prefix_of_between`: the extensions of a prefix form an interval.
* `take_le_take`, `lt_take_of_lt`: the order of the first members.
-/

namespace SmithSnmp.Lib

open List

variable {α : Type*} [LinearOrder α]

/-- A common prefix does not decide a comparison. -/
@[simp] theorem append_lt_append_left_iff (p a b : List α) : p ++ a < p ++ b ↔ a < b := by
  induction p with
  | nil => simp
  | cons x p ih => simp [ih]

/-- A common prefix does not decide a comparison, in the weak order. -/
@[simp] theorem append_le_append_left_iff (p a b : List α) : p ++ a ≤ p ++ b ↔ a ≤ b := by
  rw [← not_lt, ← not_lt, append_lt_append_left_iff]

theorem le_of_extends {p l : List α} (h : p <+: l) : p ≤ l := by
  obtain ⟨t, rfl⟩ := h
  induction p with
  | nil => exact not_lt.mp (not_lt_nil t)
  | cons x p ih => exact cons_le_cons x ih

/-- A proper extension is strictly greater. -/
theorem lt_of_prefix_of_ne {p l : List α} (h : p <+: l) (hne : p ≠ l) : p < l :=
  lt_of_le_of_ne (le_of_extends h) hne

/-- The empty list is below every other list. -/
theorem nil_lt_iff {l : List α} : [] < l ↔ l ≠ [] := by
  cases l with
  | nil => simp
  | cons x l => simp

/-- Two lists of which the smaller is not a prefix of the greater keep their order under
any extension. -/
theorem append_lt_append_of_lt {p q : List α} (hlt : p < q) (hnp : ¬ p <+: q)
    (a b : List α) : p ++ a < q ++ b := by
  induction p generalizing q with
  | nil => exact absurd nil_prefix hnp
  | cons x p ih =>
    cases q with
    | nil => simp at hlt
    | cons y q =>
      rcases cons_lt_cons_iff.mp hlt with hxy | ⟨rfl, hpq⟩
      · exact cons_lt_cons_iff.mpr (.inl hxy)
      · have hnp' : ¬ p <+: q := fun h => hnp ((prefix_cons_inj x).mpr h)
        exact cons_lt_cons_iff.mpr (.inr ⟨rfl, ih hpq hnp'⟩)

/-- The extensions of a prefix form an interval: what lies between two of them is one. -/
theorem prefix_of_between {p a b c : List α} (ha : p <+: a) (hc : p <+: c)
    (hab : a ≤ b) (hbc : b ≤ c) : p <+: b := by
  induction p generalizing a b c with
  | nil => exact nil_prefix
  | cons x p ih =>
    obtain ⟨a, rfl⟩ := ha
    obtain ⟨c, rfl⟩ := hc
    cases b with
    | nil => exact absurd hab (by simp)
    | cons y b =>
      have hxy : x ≤ y := by
        by_contra h
        exact absurd (cons_lt_cons_iff.mpr (.inl (not_le.mp h))) (not_lt.mpr hab)
      have hyx : y ≤ x := by
        by_contra h
        exact absurd (cons_lt_cons_iff.mpr (.inl (not_le.mp h))) (not_lt.mpr hbc)
      obtain rfl : x = y := le_antisymm hxy hyx
      rw [prefix_cons_inj]
      have hab' : p ++ a ≤ b := by
        by_contra h
        exact absurd (cons_lt_cons_iff.mpr (.inr ⟨rfl, not_le.mp h⟩))
          (not_lt.mpr hab)
      have hbc' : b ≤ p ++ c := by
        by_contra h
        exact absurd (cons_lt_cons_iff.mpr (.inr ⟨rfl, not_le.mp h⟩))
          (not_lt.mpr hbc)
      exact ih (prefix_append p a) (prefix_append p c) hab' hbc'

/-- The order of two lists decides that of their first members. -/
theorem take_le_take {a b : List α} (h : a ≤ b) (k : ℕ) : a.take k ≤ b.take k := by
  induction k generalizing a b with
  | zero => simp
  | succ k ih =>
    cases a with
    | nil => exact le_of_extends nil_prefix
    | cons x a =>
      cases b with
      | nil => exact absurd h (by simp)
      | cons y b =>
        rcases h.lt_or_eq with hlt | heq
        · rcases cons_lt_cons_iff.mp hlt with hxy | ⟨rfl, hab⟩
          · exact (cons_lt_cons_iff.mpr (.inl hxy)).le
          · exact cons_le_cons x (ih hab.le)
        · rw [heq]

/-- What is behind a short list has its first members behind it. -/
theorem lt_take_of_lt {a b : List α} (h : a < b) {k : ℕ} (hk : a.length < k) : a < b.take k := by
  induction a generalizing b k with
  | nil =>
    rw [nil_lt_iff] at h ⊢
    cases b with
    | nil => exact absurd rfl h
    | cons y b =>
      cases k with
      | zero => cases hk
      | succ k => simp
  | cons x a ih =>
    cases b with
    | nil => exact absurd h (by simp)
    | cons y b =>
      cases k with
      | zero => cases hk
      | succ k =>
        rw [take_succ_cons, cons_lt_cons_iff]
        rcases cons_lt_cons_iff.mp h with hxy | ⟨rfl, hab⟩
        · exact .inl hxy
        · exact .inr ⟨rfl, ih hab (Nat.lt_of_succ_lt_succ hk)⟩

end SmithSnmp.Lib
