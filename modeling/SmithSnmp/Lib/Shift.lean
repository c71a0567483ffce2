import Mathlib.Data.List.Basic

/-!
# Moving the Elements of an Array

The loops by which a program makes room for an element of an array or closes a gap: moving
up in place from the end, moving down in place from the gap, and copying into a new array
around a gap. Arrays are lists; a write outside of one is lost.

For each loop one lemma gives its result at every index. `take_shiftUp_set`,
`take_spread_set` and `take_shiftDown` read them for an array of which only the first `n`
elements are in use: the element is inserted at the index, or the one there is erased.

`shiftUpMoves` and `spreadMoves` are the indexes that the loops move from and to, for those who
ask whether they are inside of the arrays.
-/

namespace SmithSnmp.Lib

open List

variable {α : Type}

variable {a b : List α} {n index m : ℕ} {x : α}

/-- `b[j] = a[i]` -/
def moveElem (a b : List α) (i j : ℕ) : List α :=
  match a[i]? with
  | some x => b.set j x
  | none => b

/-- `for (i = index + m - 1; i >= index; i--) a[i + 1] = a[i]` -/
def shiftUp (index : ℕ) : ℕ → List α → List α
  | 0, a => a
  | m + 1, a => shiftUp index m (moveElem a a (index + m) (index + m + 1))

/-- `for (i = index; i < index + m; i++) a[i] = a[i + 1]` -/
def shiftDown : ℕ → ℕ → List α → List α
  | 0, _, a => a
  | m + 1, index, a => shiftDown m (index + 1) (moveElem a a (index + 1) index)

/-- `for (i = 0; i < n; i++) if (i < index) b[i] = a[i]; else b[i + 1] = a[i]` -/
def spread (index : ℕ) (a b : List α) : ℕ → List α
  | 0 => b
  | n + 1 => moveElem a (spread index a b n) n (if n < index then n else n + 1)

/-! ### What the loops leave -/

/-- A move keeps the length. -/
@[simp] theorem length_moveElem (a b : List α) (i j : ℕ) :
    (moveElem a b i j).length = b.length := by
  rw [moveElem]
  split <;> simp

/-- Only the entry that is moved to changes. -/
theorem getElem?_moveElem {i j : ℕ} (hi : i < a.length) (hj : j < b.length) (k : ℕ) :
    (moveElem a b i j)[k]? = if k = j then a[i]? else b[k]? := by
  rw [moveElem, getElem?_eq_getElem hi]
  rcases eq_or_ne k j with rfl | hk
  · simp [hj]
  · simp [hk, hk.symm]

/-- A shift keeps the length. -/
@[simp] theorem length_shiftUp (index m : ℕ) (a : List α) :
    (shiftUp index m a).length = a.length := by
  induction m generalizing a with
  | zero => rfl
  | succ m ih => rw [shiftUp, ih, length_moveElem]

/-- A shift keeps the length. -/
@[simp] theorem length_shiftDown (m index : ℕ) (a : List α) :
    (shiftDown m index a).length = a.length := by
  induction m generalizing index a with
  | zero => rfl
  | succ m ih => rw [shiftDown, ih, length_moveElem]

/-- Spreading keeps the length of the target. -/
@[simp] theorem length_spread (index : ℕ) (a b : List α) (n : ℕ) :
    (spread index a b n).length = b.length := by
  induction n with
  | zero => rfl
  | succ n ih => rw [spread, length_moveElem, ih]

/-- Entries behind the index come from the place before. -/
theorem getElem?_shiftUp (index m : ℕ) (h : index + m < a.length) (k : ℕ) :
    (shiftUp index m a)[k]? = if index < k ∧ k ≤ index + m then a[k - 1]? else a[k]? := by
  induction m generalizing a with
  | zero =>
    have hk : ¬ (index < k ∧ k ≤ index + 0) := by omega
    rw [shiftUp, if_neg hk]
  | succ m ih =>
    have hmove := getElem?_moveElem (a := a) (b := a) (i := index + m) (j := index + m + 1)
      (by omega) (by omega)
    rw [shiftUp, ih (by simpa using by omega), hmove, hmove]
    grind

/-- Entries from the index on come from the place behind. -/
theorem getElem?_shiftDown (m index : ℕ) (h : index + m < a.length) (k : ℕ) :
    (shiftDown m index a)[k]? = if index ≤ k ∧ k < index + m then a[k + 1]? else a[k]? := by
  induction m generalizing index a with
  | zero =>
    have hk : ¬ (index ≤ k ∧ k < index + 0) := by omega
    rw [shiftDown, if_neg hk]
  | succ m ih =>
    have hmove := getElem?_moveElem (a := a) (b := a) (i := index + 1) (j := index)
      (by omega) (by omega)
    rw [shiftDown, ih (index + 1) (by simpa using by omega), hmove, hmove]
    grind

/-- Entries behind the gap come from the place before. -/
theorem getElem?_spread (index : ℕ) (ha : n ≤ a.length) (hb : n < b.length) (k : ℕ) :
    (spread index a b n)[k]? =
      if k < n ∧ k < index then a[k]?
      else if index < k ∧ k ≤ n then a[k - 1]? else b[k]? := by
  induction n with
  | zero =>
    have hk₁ : ¬ (k < 0 ∧ k < index) := by omega
    have hk₂ : ¬ (index < k ∧ k ≤ 0) := by omega
    rw [spread, if_neg hk₁, if_neg hk₂]
  | succ n ih =>
    have hj : (if n < index then n else n + 1) < (spread index a b n).length := by
      rw [length_spread]
      split <;> omega
    rw [spread, getElem?_moveElem (by omega) hj, ih (by omega) (by omega)]
    grind

/-! ### The elements and the moves -/

/-- No element comes from elsewhere. -/
theorem mem_of_mem_moveElem {i j : ℕ} (h : x ∈ moveElem a b i j) : x ∈ a ∨ x ∈ b := by
  rw [moveElem] at h
  split at h
  · next y hy =>
      rcases mem_or_eq_of_mem_set h with h | rfl
      · exact .inr h
      · exact .inl (mem_of_getElem? hy)
  · exact .inr h

/-- A shift brings in nothing new. -/
theorem mem_of_mem_shiftUp (h : x ∈ shiftUp index m a) : x ∈ a := by
  induction m generalizing a with
  | zero => exact h
  | succ m ih => exact (mem_of_mem_moveElem (ih h)).elim id id

/-- A shift brings in nothing new. -/
theorem mem_of_mem_shiftDown (h : x ∈ shiftDown m index a) : x ∈ a := by
  induction m generalizing index a with
  | zero => exact h
  | succ m ih => exact (mem_of_mem_moveElem (ih h)).elim id id

/-- What is in the target came from the source or was there. -/
theorem mem_of_mem_spread (h : x ∈ spread index a b n) : x ∈ a ∨ x ∈ b := by
  induction n with
  | zero => exact .inr h
  | succ n ih => exact (mem_of_mem_moveElem h).elim .inl ih

/-- The moves of `shiftUp`, from an index to an index. -/
def shiftUpMoves (index : ℕ) : ℕ → List (ℕ × ℕ)
  | 0 => []
  | m + 1 => (index + m, index + m + 1) :: shiftUpMoves index m

/-- The moves of `spread`, from an index of `a` to an index of `b`. -/
def spreadMoves (index : ℕ) : ℕ → List (ℕ × ℕ)
  | 0 => []
  | n + 1 => spreadMoves index n ++ [(n, if n < index then n else n + 1)]

/-- The loop makes its moves one after the other. -/
theorem shiftUp_eq_foldl (index m : ℕ) (a : List α) :
    shiftUp index m a = (shiftUpMoves index m).foldl (fun a k => moveElem a a k.1 k.2) a := by
  induction m generalizing a with
  | zero => rfl
  | succ m ih => rw [shiftUp, ih, shiftUpMoves, foldl_cons]

/-- The loop makes its moves one after the other. -/
theorem spread_eq_foldl (index : ℕ) (a b : List α) (n : ℕ) :
    spread index a b n = (spreadMoves index n).foldl (fun b k => moveElem a b k.1 k.2) b := by
  induction n with
  | zero => rfl
  | succ n ih => rw [spread, ih, spreadMoves, foldl_append, foldl_cons, foldl_nil]

/-- The moves of a shift. -/
theorem mem_shiftUpMoves {k : ℕ × ℕ} :
    k ∈ shiftUpMoves index m ↔ ∃ i, index ≤ i ∧ i < index + m ∧ k = (i, i + 1) := by
  induction m with
  | zero => simp [shiftUpMoves]; omega
  | succ m ih =>
    rw [shiftUpMoves, mem_cons, ih]
    constructor
    · rintro (rfl | ⟨i, hle, hlt, rfl⟩)
      · exact ⟨index + m, by omega, by omega, rfl⟩
      · exact ⟨i, hle, by omega, rfl⟩
    · rintro ⟨i, hle, hlt, rfl⟩
      rcases Nat.lt_succ_iff_lt_or_eq.mp (show i < (index + m) + 1 by omega) with h | rfl
      · exact .inr ⟨i, hle, h, rfl⟩
      · exact .inl rfl

/-- The moves of spreading. -/
theorem mem_spreadMoves {k : ℕ × ℕ} :
    k ∈ spreadMoves index n ↔ ∃ i < n, k = (i, if i < index then i else i + 1) := by
  induction n with
  | zero => simp [spreadMoves]
  | succ n ih =>
    rw [spreadMoves, mem_append, ih, mem_singleton]
    constructor
    · rintro (⟨i, hlt, rfl⟩ | rfl)
      · exact ⟨i, by omega, rfl⟩
      · exact ⟨n, by omega, rfl⟩
    · rintro ⟨i, hlt, rfl⟩
      rcases Nat.lt_succ_iff_lt_or_eq.mp hlt with h | rfl
      · exact .inl ⟨i, h, rfl⟩
      · exact .inr rfl

/-! ### Arrays in use up to `n` -/

/-- The elements from an index on stand one further: the write there completes an insertion. -/
theorem take_set_of_gap (hi : index ≤ n) (ha : n ≤ a.length) (hb : n < b.length)
    (hgap : ∀ k ≤ n, k ≠ index → b[k]? = if k < index then a[k]? else a[k - 1]?) (x : α) :
    (b.set index x).take (n + 1) = (a.take n).take index ++ x :: (a.take n).drop index := by
  refine ext_getElem? fun k => ?_
  have hk := hgap k
  grind

/-- Moving up and writing inserts. -/
theorem take_shiftUp_set (hi : index ≤ n) (hn : n < a.length) (x : α) :
    ((shiftUp index (n - index) a).set index x).take (n + 1) =
      (a.take n).take index ++ x :: (a.take n).drop index := by
  refine take_set_of_gap hi (Nat.le_of_lt hn) (by rwa [length_shiftUp]) (fun k hk hne => ?_) x
  rw [getElem?_shiftUp index (n - index) (by omega)]
  split_ifs <;> first | rfl | omega

/-- Copying around a gap and writing inserts. -/
theorem take_spread_set (hi : index ≤ n) (ha : n ≤ a.length) (hb : n < b.length) (x : α) :
    ((spread index a b n).set index x).take (n + 1) =
      (a.take n).take index ++ x :: (a.take n).drop index := by
  refine take_set_of_gap hi ha (by rwa [length_spread]) (fun k hk hne => ?_) x
  rw [getElem?_spread index ha hb]
  split_ifs <;> first | rfl | omega

/-- Moving down erases. -/
theorem take_shiftDown (hi : index < n) (hn : n ≤ a.length) :
    (shiftDown (n - 1 - index) index a).take (n - 1) = (a.take n).eraseIdx index := by
  refine ext_getElem? fun k => ?_
  have hk := getElem?_shiftDown (n - 1 - index) index (a := a) (by omega) k
  grind

end SmithSnmp.Lib
