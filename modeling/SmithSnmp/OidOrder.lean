import SmithSnmp.Lib.Loops
import SmithSnmp.Oid

/-!
# Comparing and Searching Sub-Identifiers

How far `oid_cmp` and `oid_binary_search` of `core/mib_tree.c` agree with the order of unsigned
numbers.

`oid_cmp` casts an unsigned difference to `int`. The sign is that of the lexicographic order
exactly as long as the difference of the first two sub-identifiers that differ fits in an `int`,
so on arbitrary OIDs it is not even an order. `oid_binary_search` compares the numbers themselves,
and is exact on every strictly increasing array. Its loop is given round by round here, so that
its end and the indexes it reads at are those of a run.

## Main results

* `oidCmp_lex_iff`: when the sign of `oid_cmp` is right.
* `oidBinarySearch_exact`: the search ends, reads inside the array and finds the place.
-/

namespace SmithSnmp

open List Lib StateTransition

/-! ### Comparison -/

/-- The sign of `oid_cmp` is that of the lexicographic order, where a proper prefix is smaller. -/
structure Compared (a b : Oid) : Prop where
  neg : oidCmp a b < 0 ↔ a < b
  zero : oidCmp a b = 0 ↔ a = b
  pos : 0 < oidCmp a b ↔ b < a

/-- The difference of two sub-identifiers fits in an `int`. -/
def FitsInt (s t : UInt32) : Prop :=
  -2 ^ 31 ≤ (s.toNat : ℤ) - t.toNat ∧ (s.toNat : ℤ) - t.toNat < 2 ^ 31

/-- The cast of the unsigned difference: it is the difference, or `2 ^ 32` off to the other side
of zero. -/
theorem toInt32_sub_cases (s t : UInt32) :
    (FitsInt s t ∧ (s - t).toInt32.toInt = (s.toNat : ℤ) - t.toNat) ∨
      (¬FitsInt s t ∧ t < s ∧ (s - t).toInt32.toInt < 0) ∨
      (¬FitsInt s t ∧ s < t ∧ 0 < (s - t).toInt32.toInt) := by
  have hs := s.toNat_lt
  have ht := t.toNat_lt
  have hsub : (s - t).toNat = (2 ^ 32 - t.toNat + s.toNat) % 2 ^ 32 := UInt32.toNat_sub s t
  have hcast : (s - t).toInt32.toInt =
      if 2 * (s - t).toNat < 2 ^ 32 then ((s - t).toNat : ℤ) else (s - t).toNat - 2 ^ 32 :=
    BitVec.toInt_eq_toNat_cond (s - t).toBitVec
  rw [FitsInt, hcast, hsub, UInt32.lt_iff_toNat_lt, UInt32.lt_iff_toNat_lt]
  split <;> omega

/-- Of two OIDs that start differently, the first sub-identifiers decide. -/
theorem compared_cons_iff {s t : UInt32} (hst : s ≠ t) (a b : Oid) :
    Compared (s :: a) (t :: b) ↔ FitsInt s t := by
  have hcmp : oidCmp (s :: a) (t :: b) = (s - t).toInt32.toInt := by
    rw [oidCmp, if_neg (sub_eq_zero_iff_eq.not.mpr hst)]
  have hlt : s :: a < t :: b ↔ s.toNat < t.toNat := by
    simp [cons_lt_cons_iff, hst, UInt32.lt_iff_toNat_lt]
  have hgt : t :: b < s :: a ↔ t.toNat < s.toNat := by
    simp [cons_lt_cons_iff, hst.symm, UInt32.lt_iff_toNat_lt]
  constructor
  · intro h
    have hneg := h.neg
    have hpos := h.pos
    rw [hcmp, hlt] at hneg
    rw [hcmp, hgt] at hpos
    rcases toInt32_sub_cases s t with ⟨hfits, -⟩ | ⟨-, hts, hsign⟩ | ⟨-, hts, hsign⟩
    · exact hfits
    · have hlt' := UInt32.lt_iff_toNat_lt.mp hts
      exact absurd (hneg.mp hsign) (by omega)
    · have hlt' := UInt32.lt_iff_toNat_lt.mp hts
      exact absurd (hpos.mp hsign) (by omega)
  · intro hfits
    have hdiff : oidCmp (s :: a) (t :: b) = (s.toNat : ℤ) - t.toNat := by
      rcases toInt32_sub_cases s t with ⟨-, h⟩ | ⟨hno, -⟩ | ⟨hno, -⟩
      · rw [hcmp, h]
      · exact absurd hfits hno
      · exact absurd hfits hno
    refine ⟨?_, oidCmp_eq_zero_iff _ _, ?_⟩
    · rw [hdiff, hlt]
      omega
    · rw [hdiff, hgt]
      omega

/-- A common first sub-identifier is passed over. -/
theorem compared_cons_self_iff (s : UInt32) (a b : Oid) :
    Compared (s :: a) (s :: b) ↔ Compared a b := by
  have hcmp : oidCmp (s :: a) (s :: b) = oidCmp a b := by simp [oidCmp]
  have hlt : ∀ a b : Oid, s :: a < s :: b ↔ a < b := fun a b => cons_lt_cons_self ..
  constructor
  · rintro ⟨hneg, -, hpos⟩
    rw [hcmp, hlt] at hneg hpos
    exact ⟨hneg, oidCmp_eq_zero_iff _ _, hpos⟩
  · rintro ⟨hneg, -, hpos⟩
    refine ⟨?_, oidCmp_eq_zero_iff _ _, ?_⟩
    · rw [hcmp, hlt, hneg]
    · rw [hcmp, hlt, hpos]

theorem compared_nil (a : Oid) : Compared [] a ∧ Compared a [] := by
  cases a with
  | nil =>
    have hself : Compared [] [] := ⟨by simp [oidCmp], by simp, by simp [oidCmp]⟩
    exact ⟨hself, hself⟩
  | cons s a =>
    have hleft : oidCmp [] (s :: a) < 0 := by simp [oidCmp]; omega
    have hright : 0 < oidCmp (s :: a) [] := by simp [oidCmp]
    refine ⟨⟨?_, by simp, ?_⟩, ?_, by simp, ?_⟩
    · exact iff_of_true hleft (nil_lt_cons s a)
    · exact iff_of_false (by omega) (not_lt_nil _)
    · exact iff_of_false (by omega) (not_lt_nil _)
    · exact iff_of_true hright (nil_lt_cons s a)

/-- **The order of `oid_cmp`.** Its sign is that of the lexicographic order of unsigned
sub-identifiers if and only if the difference of the first two that differ fits in an `int`. -/
theorem oidCmp_lex_iff (a b : Oid) :
    Compared a b ↔ ∀ (p : Oid) (s t : UInt32) (a' b' : Oid), a = p ++ s :: a' → b = p ++ t :: b' →
      s ≠ t → FitsInt s t := by
  induction a generalizing b with
  | nil =>
    refine iff_of_true (compared_nil b).1 ?_
    intro p s t a' b' ha
    simp at ha
  | cons x a ih =>
    cases b with
    | nil =>
      refine iff_of_true (compared_nil (x :: a)).2 ?_
      intro p s t a' b' _ hb
      simp at hb
    | cons y b =>
      by_cases hxy : x = y
      · subst hxy
        rw [compared_cons_self_iff, ih]
        constructor
        · intro h p s t a' b' ha hb hst
          cases p with
          | nil =>
            obtain ⟨rfl, -⟩ := List.cons.inj ha
            exact absurd (List.cons.inj hb).1 hst
          | cons z p => exact h p s t a' b' (List.cons.inj ha).2 (List.cons.inj hb).2 hst
        · rintro h p s t a' b' rfl rfl hst
          exact h (x :: p) s t a' b' rfl rfl hst
      · rw [compared_cons_iff hxy]
        constructor
        · intro h p s t a' b' ha hb hst
          cases p with
          | nil =>
            obtain ⟨rfl, -⟩ := List.cons.inj ha
            obtain ⟨rfl, -⟩ := List.cons.inj hb
            exact h
          | cons z p =>
            exact absurd ((List.cons.inj ha).1.trans (List.cons.inj hb).1.symm) hxy
        · intro h
          exact h [] x y a b rfl rfl hxy

/-- Enterprise numbers from `2 ^ 31` on: the greater one comes first, of three OIDs each is before
the next one in a circle, and of two that are `2 ^ 31` apart each is before the other. -/
theorem oidCmp_not_lex :
    (oidCmp [1, 3, 0x80000001] [1, 3, 1] < 0 ∧ ([1, 3, 1] : Oid) < [1, 3, 0x80000001]) ∧
      (oidCmp [0] [0x60000000] < 0 ∧ oidCmp [0x60000000] [0xc0000000] < 0 ∧
        oidCmp [0xc0000000] [0] < 0) ∧
      oidCmp [0] [0x80000000] < 0 ∧ oidCmp [0x80000000] [0] < 0 := by
  decide

/-! ### Binary search -/

/-- One round of the loop of `oid_binary_search` on `(low, high)`. -/
def searchRound (array : List UInt32) (oid : UInt32) : ℤ × ℤ → Option (ℤ × ℤ)
  | (low, high) =>
    if low + 1 < high then
      let mid := low + (high - low) / 2
      if array.getD mid.toNat 0 < oid then some (mid, high) else some (low, mid)
    else none

theorem oidBinarySearchLoop_mem_eval (array : List UInt32) (oid : UInt32) (fuel : ℕ) (low high : ℤ)
    (hfuel : high - low ≤ fuel + 1) :
    ∃ low', (low', oidBinarySearchLoop array oid fuel low high) ∈
      eval (searchRound array oid) (low, high) := by
  induction fuel generalizing low high with
  | zero =>
    have hend : searchRound array oid (low, high) = none := if_neg (by omega)
    exact ⟨low, mem_eval.mpr ⟨.refl, hend⟩⟩
  | succ fuel ih =>
    rw [oidBinarySearchLoop]
    by_cases hadj : low + 1 < high
    · rw [if_pos hadj]
      dsimp only
      split
      · next hlt =>
          have hround : searchRound array oid (low, high) =
              some (low + (high - low) / 2, high) := by
            rw [searchRound, if_pos hadj]
            exact if_pos hlt
          rw [reaches_eval (reaches_of_round hround .refl)]
          exact ih _ _ (by omega)
      · next hlt =>
          have hround : searchRound array oid (low, high) =
              some (low, low + (high - low) / 2) := by
            rw [searchRound, if_pos hadj]
            exact if_neg hlt
          rw [reaches_eval (reaches_of_round hround .refl)]
          exact ih _ _ (by omega)
    · rw [if_neg hadj]
      exact ⟨low, mem_eval.mpr ⟨.refl, if_neg hadj⟩⟩

/-- The bounds stay around the array and do not meet, so `int` arithmetic is exact for them. -/
def SearchBounds (n : ℕ) (s : ℤ × ℤ) : Prop := -1 ≤ s.1 ∧ s.1 < s.2 ∧ s.2 ≤ n

/-- A round keeps them. -/
theorem SearchBounds.round {array : List UInt32} {oid : UInt32} {n : ℕ} {s t : ℤ × ℤ}
    (h : SearchBounds n s) (hround : searchRound array oid s = some t) : SearchBounds n t := by
  obtain ⟨low, high⟩ := s
  obtain ⟨hlow, hlt, hhigh⟩ := h
  rw [searchRound] at hround
  split at hround
  · next hadj =>
      dsimp only at hround hlow hlt hhigh
      split at hround
      · obtain rfl := Option.some.inj hround
        exact ⟨by dsimp only; omega, by dsimp only; omega, hhigh⟩
      · obtain rfl := Option.some.inj hround
        exact ⟨hlow, by dsimp only; omega, by dsimp only; omega⟩
  · cases hround

/-- A sub-identifier of the array is found at its index. -/
theorem oidBinarySearch_getElem {array : List UInt32} (hs : array.Pairwise (· < ·)) {i : ℕ}
    (hi : i < array.length) : oidBinarySearch array array[i] = i := by
  have hsplit : array = array.take i ++ array[i] :: array.drop (i + 1) := by
    rw [getElem_cons_drop, take_append_drop]
  obtain ⟨-, hright, hcross⟩ := pairwise_append.mp (hsplit ▸ hs)
  have hfound := oidBinarySearch_found (fun x hx => hcross x hx array[i] mem_cons_self)
    (pairwise_cons.mp hright).1
  rwa [← hsplit, length_take_of_le hi.le] at hfound

/-- For a sub-identifier that is not in the array the number of smaller ones is given. -/
theorem oidBinarySearch_of_notMem {array : List UInt32} (hs : array.Pairwise (· < ·))
    {oid : UInt32} (hoid : oid ∉ array) :
    oidBinarySearch array oid = -(array.countP (· < oid) : ℤ) - 1 := by
  obtain ⟨l, r, rfl, hl, hr⟩ := exists_split id (by simpa using hs) oid
  have hr' : ∀ x ∈ r, oid < x := by
    intro x hx
    have hne : oid ≠ x := by
      rintro rfl
      exact hoid (mem_append_right l hx)
    exact lt_of_le_of_ne (not_lt.mp (hr x hx)) hne
  have hcount : (l ++ r).countP (· < oid) = l.length := by
    rw [countP_append, countP_eq_length.mpr (by simpa using hl),
      countP_eq_zero.mpr (by simpa using hr), Nat.add_zero]
  rw [oidBinarySearch_missing hl hr', hcount]

/-- **Binary search.** On a strictly increasing array the loop ends, the array is only read inside,
a sub-identifier that is there is found, and for any other one the number of smaller ones is
given. -/
theorem oidBinarySearch_exact (array : List UInt32) (hs : array.Pairwise (· < ·)) (oid : UInt32) :
    (∃ low high, (low, high) ∈ eval (searchRound array oid) (-1, (array.length : ℤ)) ∧
      0 ≤ high ∧ high ≤ array.length ∧
      oidBinarySearch array oid =
        if high ≥ array.length ∨ array.getD high.toNat 0 ≠ oid then -high - 1 else high) ∧
    (∀ low high,
      StateTransition.Reaches (searchRound array oid) (-1, (array.length : ℤ)) (low, high) →
      low + 1 < high → 0 ≤ low + (high - low) / 2 ∧ low + (high - low) / 2 < array.length) ∧
    (∀ i (hi : i < array.length), array[i] = oid → oidBinarySearch array oid = i) ∧
    (oid ∉ array → oidBinarySearch array oid = -(array.countP (· < oid) : ℤ) - 1) := by
  have hstart : SearchBounds array.length (-1, (array.length : ℤ)) :=
    ⟨le_rfl, by dsimp only; omega, le_rfl⟩
  have hbounds : ∀ s, StateTransition.Reaches (searchRound array oid) (-1, (array.length : ℤ)) s →
      SearchBounds array.length s := fun s hrun =>
    invariant_of_reaches _ (fun _ _ => SearchBounds.round) hstart hrun
  refine ⟨?_, ?_, ?_, ?_⟩
  · obtain ⟨low, hend⟩ := oidBinarySearchLoop_mem_eval array oid (array.length + 1) (-1)
      array.length (by push_cast; omega)
    obtain ⟨hlow, hlt, hhigh⟩ := hbounds _ (mem_eval.mp hend).1
    dsimp only at hlow hlt hhigh
    exact ⟨low, _, hend, by omega, hhigh, rfl⟩
  · intro low high hrun hadj
    obtain ⟨hlow, hlt, hhigh⟩ := hbounds _ hrun
    dsimp only at hlow hlt hhigh
    omega
  · rintro i hi rfl
    exact oidBinarySearch_getElem hs hi
  · exact oidBinarySearch_of_notMem hs

/-- The search for a sub-identifier between two others, and for one that is there. -/
theorem oidBinarySearch_exact_mib2 :
    ([1, 2, 5, 7] : List UInt32).Pairwise (· < ·) ∧ oidBinarySearch [1, 2, 5, 7] 5 = 2 ∧
      oidBinarySearch [1, 2, 5, 7] 6 = -4 := by
  have hs : ([1, 2, 5, 7] : List UInt32).Pairwise (· < ·) := by decide
  obtain ⟨-, -, hfound, -⟩ := oidBinarySearch_exact [1, 2, 5, 7] hs 5
  obtain ⟨-, -, -, hmissing⟩ := oidBinarySearch_exact [1, 2, 5, 7] hs 6
  exact ⟨hs, hfound 2 (by decide) rfl, hmissing (by decide)⟩

end SmithSnmp
