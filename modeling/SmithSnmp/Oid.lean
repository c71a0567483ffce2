import Mathlib.Data.List.GetD
import Mathlib.Tactic.Ring
import SmithSnmp.Lib.Lex

/-!
# Object Identifiers

The OID helpers of `core/mib_tree.c`. An `oid_t` is an unsigned 32-bit sub-identifier
and an OID an array of them with its length, here a list.

* `oidCmp` subtracts sub-identifiers as unsigned numbers and casts the difference to
  `int`, so its sign is that of the lexicographic order only while the two numbers are
  less than `2 ^ 31` apart;
* `oidCover` tells which of two OIDs is a prefix of the other, and only asks whether
  `oidCmp` is zero, so it is exact for all sub-identifiers;
* `oidBinarySearch` compares unsigned numbers, and is exact on every strictly increasing
  array.

## Main results

* `oidCover_pos_iff`, `oidCover_neg_iff`, `oidCover_eq_zero_iff`
* `oidCmp_neg_iff_lt`: the sign of `oidCmp` for sub-identifiers below `2 ^ 31`
* `oidBinarySearch_found`, `oidBinarySearch_missing`
-/

namespace SmithSnmp

open List

variable {oid : UInt32} {l r : List UInt32}

/-- The unsigned order of `oid_t`, as a linear order. -/
instance instLinearOrderUInt32 : LinearOrder UInt32 where
  le_refl := UInt32.le_refl
  le_trans _ _ _ := UInt32.le_trans
  le_antisymm _ _ := UInt32.le_antisymm
  le_total := UInt32.le_total
  lt_iff_le_not_ge a b := by
    simp only [UInt32.lt_iff_toNat_lt, UInt32.le_iff_toNat_le]
    omega
  toDecidableLE := fun a b => UInt32.decLe a b
  toDecidableLT := fun a b => UInt32.decLt a b
  toDecidableEq := fun a b => instDecidableEqUInt32 a b

/-- `oid_t *` with its length. -/
abbrev Oid := List UInt32

/-- `ASN1_OID_MAX_LEN` -/
def asn1OidMaxLen : ℕ := 64

/-- `oid_cmp`: the first non-zero difference of sub-identifiers as an `int`, or the
difference of the lengths. -/
def oidCmp : Oid → Oid → Int
  | s :: src, t :: target =>
    if s - t = 0 then oidCmp src target else (s - t).toInt32.toInt
  | src, target => (src.length : Int) - target.length

/-- `oid_cover`: `1` when the first OID covers (is a prefix of) the second, `-1` when it
is properly covered by it, `0` otherwise. -/
def oidCover (oid1 oid2 : Oid) : Int :=
  if oid1.length ≤ oid2.length ∧ oidCmp oid1 (oid2.take oid1.length) = 0 then 1
  else if oid2.length ≤ oid1.length ∧ oidCmp (oid1.take oid2.length) oid2 = 0 then -1
  else 0

/-- The loop of `oid_binary_search`: halve `(low, high)` until the two are adjacent. -/
def oidBinarySearchLoop (array : List UInt32) (oid : UInt32) : ℕ → Int → Int → Int
  | 0, _, high => high
  | fuel + 1, low, high =>
    if low + 1 < high then
      let mid := low + (high - low) / 2
      if array.getD mid.toNat 0 < oid then oidBinarySearchLoop array oid fuel mid high
      else oidBinarySearchLoop array oid fuel low mid
    else high

/-- `oid_binary_search`: the index of `oid`, or `-i - 1` where `i` is the index at which
it would have to be inserted. The interval shrinks by one at least in every round, so
`n + 1` rounds are enough. -/
def oidBinarySearch (array : List UInt32) (oid : UInt32) : Int :=
  let n : Int := array.length
  let high := oidBinarySearchLoop array oid (array.length + 1) (-1) n
  if high ≥ n ∨ array.getD high.toNat 0 ≠ oid then -high - 1 else high

/-! ### Comparison and cover -/

/-- The unsigned difference of two sub-identifiers is zero only when they are equal. -/
theorem sub_eq_zero_iff_eq {x y : UInt32} : x - y = 0 ↔ x = y := by
  grind

/-- The cast to `int` keeps zero and nothing else at zero. -/
theorem toInt32_toInt_eq_zero_iff (z : UInt32) : z.toInt32.toInt = 0 ↔ z = 0 := by
  rw [show z.toInt32.toInt = z.toBitVec.toInt from rfl,
    show (0 : Int) = (0#32).toInt from rfl, BitVec.toInt_inj, ← UInt32.toBitVec_inj]
  rfl

/-- `oid_cmp` is zero exactly on equal OIDs, whatever the sub-identifiers. -/
@[simp] theorem oidCmp_eq_zero_iff (a b : Oid) : oidCmp a b = 0 ↔ a = b := by
  induction a generalizing b with
  | nil =>
    cases b with
    | nil => simp [oidCmp]
    | cons y b => simp [oidCmp]; omega
  | cons x a ih =>
    cases b with
    | nil => simp [oidCmp]; omega
    | cons y b =>
      by_cases hxy : x - y = 0
      · obtain rfl : x = y := sub_eq_zero_iff_eq.mp hxy
        simp [oidCmp, ih]
      · have hx : x ≠ y := fun h => hxy (sub_eq_zero_iff_eq.mpr h)
        rw [oidCmp, if_neg hxy, toInt32_toInt_eq_zero_iff]
        simp [hxy, hx]

/-- `oid_cover` is positive exactly when the first OID is a prefix of the second. -/
theorem oidCover_pos_iff (a b : Oid) : 0 < oidCover a b ↔ a <+: b := by
  unfold oidCover
  rw [prefix_iff_eq_take]
  constructor
  · intro h
    split at h
    · next hab => exact (oidCmp_eq_zero_iff _ _).mp hab.2
    · split at h <;> simp at h
  · intro h
    have hle : a.length ≤ b.length := by
      have := congrArg List.length h
      simp at this
      omega
    rw [if_pos ⟨hle, (oidCmp_eq_zero_iff _ _).mpr h⟩]
    decide

/-- `oid_cover` is negative exactly when the second OID is a proper prefix of the first. -/
theorem oidCover_neg_iff (a b : Oid) : oidCover a b < 0 ↔ b <+: a ∧ b ≠ a := by
  by_cases hab : a <+: b
  · have hpos := (oidCover_pos_iff a b).mpr hab
    constructor
    · intro h
      omega
    · rintro ⟨hba, hne⟩
      exact absurd (hba.eq_of_length (Nat.le_antisymm hba.length_le hab.length_le)) hne
  · have hne : b ≠ a := by
      rintro rfl
      exact hab (prefix_refl b)
    have hfst : ¬ (a.length ≤ b.length ∧ oidCmp a (b.take a.length) = 0) := by
      rintro ⟨-, h⟩
      exact hab (prefix_iff_eq_take.mpr ((oidCmp_eq_zero_iff _ _).mp h))
    unfold oidCover
    rw [if_neg hfst, prefix_iff_eq_take]
    constructor
    · intro h
      split at h
      · next hba => exact ⟨((oidCmp_eq_zero_iff _ _).mp hba.2).symm, hne⟩
      · simp at h
    · rintro ⟨h, -⟩
      have hle : b.length ≤ a.length := by
        have := congrArg List.length h
        simp at this
        omega
      rw [if_pos ⟨hle, (oidCmp_eq_zero_iff _ _).mpr h.symm⟩]
      decide

/-- `oid_cover` is zero exactly when neither OID is a prefix of the other. -/
theorem oidCover_eq_zero_iff (a b : Oid) : oidCover a b = 0 ↔ ¬ a <+: b ∧ ¬ b <+: a := by
  have hpos := oidCover_pos_iff a b
  have hneg := oidCover_neg_iff a b
  constructor
  · intro h
    have h1 : ¬ a <+: b := fun hab => by have := hpos.mpr hab; omega
    refine ⟨h1, fun hba => ?_⟩
    have : b ≠ a := by
      rintro rfl
      exact h1 hba
    have := hneg.mpr ⟨hba, this⟩
    omega
  · rintro ⟨h1, h2⟩
    have : ¬ 0 < oidCover a b := fun h => h1 (hpos.mp h)
    have : ¬ oidCover a b < 0 := fun h => h2 (hneg.mp h).1
    omega

/-- All sub-identifiers are below `2 ^ 31`. -/
def Oid.Small (o : Oid) : Prop := ∀ x ∈ o, x.toNat < 2 ^ 31

/-- The `int` difference of two sub-identifiers below `2 ^ 31` is their difference. -/
theorem toInt32_sub_of_lt {x y : UInt32} (hx : x.toNat < 2 ^ 31) (hy : y.toNat < 2 ^ 31) :
    (x - y).toInt32.toInt = (x.toNat : Int) - y.toNat := by
  have : (x - y).toInt32.toInt = (x - y).toBitVec.toInt := rfl
  rw [this, UInt32.toBitVec_sub, BitVec.toInt_sub]
  have h1 : x.toBitVec.toInt = x.toNat := by
    rw [BitVec.toInt_eq_toNat_of_lt]
    · rfl
    · change 2 * x.toNat < _
      omega
  have h2 : y.toBitVec.toInt = y.toNat := by
    rw [BitVec.toInt_eq_toNat_of_lt]
    · rfl
    · change 2 * y.toNat < _
      omega
  rw [h1, h2, Int.bmod_eq_of_le]
  · simp; omega
  · simp; omega

/-- Below `2 ^ 31` the sign of `oid_cmp` is that of the lexicographic order. -/
theorem oidCmp_neg_iff_lt {a b : Oid} (ha : Oid.Small a) (hb : Oid.Small b) :
    oidCmp a b < 0 ↔ a < b := by
  induction a generalizing b with
  | nil =>
    cases b with
    | nil => simp [oidCmp]
    | cons y b => simp [oidCmp]; omega
  | cons x a ih =>
    cases b with
    | nil => simp [oidCmp]; omega
    | cons y b =>
      have hx : x.toNat < 2 ^ 31 := ha x (by simp)
      have hy : y.toNat < 2 ^ 31 := hb y (by simp)
      have ha' : Oid.Small a := fun z hz => ha z (by simp [hz])
      have hb' : Oid.Small b := fun z hz => hb z (by simp [hz])
      rw [cons_lt_cons_iff]
      by_cases hxy : x = y
      · subst hxy
        simp [oidCmp, ih ha' hb']
      · have hne : x - y ≠ 0 := fun h => hxy (sub_eq_zero_iff_eq.mp h)
        rw [oidCmp, if_neg hne, toInt32_sub_of_lt hx hy, UInt32.lt_iff_toNat_lt]
        constructor
        · intro h
          exact .inl (by omega)
        · rintro (h | ⟨h, -⟩)
          · omega
          · exact absurd h hxy

/-! ### Binary search -/

theorem exists_split {α : Type} (key : α → UInt32) {xs : List α}
    (hs : (xs.map key).Pairwise (· < ·)) (x : UInt32) :
    ∃ l r, xs = l ++ r ∧ (∀ s ∈ l, key s < x) ∧ (∀ s ∈ r, ¬ key s < x) := by
  induction xs with
  | nil => exact ⟨[], [], by simp⟩
  | cons s xs ih =>
    obtain ⟨hhead, htail⟩ := pairwise_cons.mp hs
    by_cases hx : key s < x
    · obtain ⟨l, r, rfl, hl, hr⟩ := ih htail
      refine ⟨s :: l, r, rfl, ?_, hr⟩
      intro t ht
      rcases mem_cons.mp ht with rfl | ht
      · exact hx
      · exact hl t ht
    · refine ⟨[], s :: xs, rfl, by simp, ?_⟩
      intro t ht
      rcases mem_cons.mp ht with rfl | ht
      · exact hx
      · have hst : key s < key t := hhead (key t) (mem_map_of_mem ht)
        exact fun h => hx (hst.trans h)

/-- On an array that splits into sub-identifiers below the target and the others, the
search loop narrows every interval around the split down to it. -/
theorem oidBinarySearchLoop_split (hl : ∀ x ∈ l, x < oid) (hr : ∀ x ∈ r, ¬ x < oid) (fuel : ℕ)
    (low high : Int) (hlow : -1 ≤ low) (hsplit : low < l.length) (hhigh : (l.length : Int) ≤ high)
    (hn : high ≤ (l ++ r).length) (hfuel : high - low ≤ fuel + 1) :
    oidBinarySearchLoop (l ++ r) oid fuel low high = l.length := by
  induction fuel generalizing low high with
  | zero =>
    rw [oidBinarySearchLoop]
    omega
  | succ fuel ih =>
    rw [oidBinarySearchLoop]
    by_cases hadj : low + 1 < high
    · rw [if_pos hadj]
      have hmid : (low + (high - low) / 2).toNat < (l ++ r).length := by omega
      simp only [getD_eq_getElem _ _ hmid]
      by_cases hside : (low + (high - low) / 2).toNat < l.length
      · have hlt : (l ++ r)[(low + (high - low) / 2).toNat] < oid := by
          rw [getElem_append_left hside]
          exact hl _ (getElem_mem _)
        rw [if_pos hlt]
        exact ih _ _ (by omega) (by omega) hhigh hn (by omega)
      · have hge : ¬ (l ++ r)[(low + (high - low) / 2).toNat] < oid := by
          rw [getElem_append_right (by omega)]
          exact hr _ (getElem_mem _)
        rw [if_neg hge]
        exact ih _ _ hlow hsplit (by omega) (by omega) (by omega)
    · rw [if_neg hadj]
      omega

/-- A sub-identifier that is present, with smaller ones before it, is found. -/
theorem oidBinarySearch_found (hl : ∀ x ∈ l, x < oid) (hr : ∀ x ∈ r, oid < x) :
    oidBinarySearch (l ++ oid :: r) oid = l.length := by
  have hr' : ∀ x ∈ oid :: r, ¬ x < oid := by
    intro x hx
    rcases mem_cons.mp hx with rfl | hx
    · exact lt_irrefl x
    · exact not_lt.mpr (hr x hx).le
  have hloop := oidBinarySearchLoop_split hl hr' ((l ++ oid :: r).length + 1) (-1)
    (l ++ oid :: r).length (by omega) (by omega) (by simp; omega) le_rfl (by push_cast; omega)
  simp only [oidBinarySearch, hloop]
  rw [if_neg]
  simp

/-- A sub-identifier that is absent is reported with the number of smaller ones. -/
theorem oidBinarySearch_missing (hl : ∀ x ∈ l, x < oid) (hr : ∀ x ∈ r, oid < x) :
    oidBinarySearch (l ++ r) oid = -(l.length : Int) - 1 := by
  have hr' : ∀ x ∈ r, ¬ x < oid := fun x hx => not_lt.mpr (hr x hx).le
  have hloop := oidBinarySearchLoop_split hl hr' ((l ++ r).length + 1) (-1)
    (l ++ r).length (by omega) (by omega) (by simp) le_rfl (by push_cast; omega)
  simp only [oidBinarySearch, hloop]
  rw [if_pos]
  cases r with
  | nil => left; simp
  | cons y r =>
    right
    have hy : oid < y := hr y (by simp)
    simpa using hy.ne'

end SmithSnmp
