import Mathlib.Data.List.Nodup
import SmithSnmp.Lib.Successor
import SmithSnmp.LuaIndex

/-!
# The Order of the Index Iterator

The index iterator is meant to return the least instance behind the request, in the lexicographic
order of the OIDs. It does so for dimensions of numbers without repetitions. There are two ways in
which it fails. When the request ends inside an array of the last dimension, then the comparison
with the array raises an error. And when a dimension before the last one has a number twice, then
the iterator takes the second one for the next number, and turns back to instances that the request
has passed.

## Main results

* `nextIndex_raised_iff`: when the iterator raises an error.
* `nextIndex_spec`: the least instance behind the request, or a turn.
* `groupIndexTableGetnext_numbers`: dimensions of numbers.
* `groupIndexTableGetnext_arrays_iff`: a last dimension of arrays.
-/

namespace SmithSnmp

open List Lib Set

variable {s d rest : List ℕ} {n x : ℕ} {nums : List (List ℕ)} {last : List Index}

/-! ### Instances as a product -/

/-- The instances of some dimensions. -/
def instances (dims : List (List Index)) : Set (List ℕ) := {s | IsInstance dims s}

/-- The numbers of the elements of a dimension. -/
def keys (d : List Index) : Set (List ℕ) := {s | s ∈ d.map Index.ids}

theorem mem_keys_iff {d : List Index} : s ∈ keys d ↔ ∃ e ∈ d, e.ids = s :=
  mem_map

theorem instances_last (last : List Index) : instances [last] = keys last := by
  ext s
  simp [instances, keys, IsInstance, eq_comm]

theorem instances_cons (d : List ℕ) (nums : List (List ℕ)) (last : List Index) :
    instances (blockDims (d :: nums) last) =
      image2 List.cons {n | n ∈ d} (instances (blockDims nums last)) := by
  ext s
  constructor
  · rintro ⟨e, he, rest, rfl, hrest⟩
    obtain ⟨n, hn, rfl⟩ := mem_map.mp he
    exact ⟨n, hn, rest, hrest, rfl⟩
  · rintro ⟨n, hn, rest, hrest, rfl⟩
    exact ⟨.id n, mem_map_of_mem hn, rest, rfl, hrest⟩

/-- The first number of a sorted list is its least one. -/
theorem isLeast_head (h : (n :: d).Pairwise (· ≤ ·)) : IsLeast {m | m ∈ n :: d} n := by
  refine ⟨mem_cons_self, fun m hm => ?_⟩
  rcases mem_cons.mp hm with rfl | hm
  · exact le_rfl
  · exact (pairwise_cons.mp h).1 m hm

/-- The first number behind `x` in a sorted list is the least one. -/
theorem isLeast_find? (hd : d.Pairwise (· ≤ ·)) (h : d.find? (x < ·) = some n) :
    IsLeast ({m | m ∈ d} ∩ Ioi x) n := by
  obtain ⟨hn, l, r, rfl, hl⟩ := find?_eq_some_iff_append.mp h
  refine ⟨⟨by simp, by simpa using hn⟩, ?_⟩
  rintro m ⟨hm, hxm⟩
  rcases mem_append.mp hm with hm | hm
  · exact absurd (hl m hm) (by simpa using hxm)
  · exact (isLeast_head (pairwise_append.mp hd).2.1).2 hm

/-- The number at the position behind `x` in a sorted list is the least greater one, if `x` is there
only once. -/
theorem isLeast_getElem?_idxOf (hd : d.Pairwise (· ≤ ·)) (hx : x ∈ d)
    (hget : d[d.idxOf x + 1]? = some n) (hne : x ≠ n) : IsLeast ({m | m ∈ d} ∩ Ioi x) n := by
  refine ⟨⟨mem_of_getElem? hget, lt_of_le_of_ne (rel_of_getElem?_idxOf hd hget) hne⟩, ?_⟩
  rintro m ⟨hm, hxm⟩
  obtain ⟨hlt, rfl⟩ := List.getElem?_eq_some_iff.mp hget
  obtain ⟨k, hk, rfl⟩ := List.getElem_of_mem hm
  have hidx : d.idxOf x < d.length := idxOf_lt_length_of_mem hx
  have hself : d[d.idxOf x] = x := getElem_idxOf hidx
  have hle : ∀ {i j : ℕ} (hi : i < d.length) (hj : j < d.length), i ≤ j → d[i] ≤ d[j] := by
    intro i j hi hj hij
    rcases hij.lt_or_eq with hij | rfl
    · exact pairwise_iff_getElem.mp hd i j hi hj hij
    · exact le_rfl
  by_cases hki : k ≤ d.idxOf x
  · exact absurd (hself ▸ hle hk hidx hki) (not_le.mpr hxm)
  · exact hle hlt hk (not_le.mp hki)

/-- Nothing in a sorted list is greater than its last number. -/
theorem getElem?_idxOf_none (hd : d.Pairwise (· ≤ ·)) (hx : x ∈ d)
    (hget : d[d.idxOf x + 1]? = none) :
    {m | m ∈ d} ∩ Ioi x = ∅ := by
  refine eq_empty_of_forall_notMem ?_
  rintro m ⟨hm, hxm⟩
  obtain ⟨k, hk, rfl⟩ := getElem_of_mem hm
  have hidx : d.idxOf x < d.length := idxOf_lt_length_of_mem hx
  have hself : d[d.idxOf x] = x := getElem_idxOf hidx
  have hki : k ≤ d.idxOf x := by
    have := getElem?_eq_none_iff.mp hget
    omega
  rcases hki.lt_or_eq with hki | rfl
  · have hle := pairwise_iff_getElem.mp hd k _ hk hidx hki
    exact absurd (hself ▸ hle) (not_le.mpr hxm)
  · exact absurd hself (ne_of_gt hxm)

/-- The first elements of all dimensions are the least instance, if there is one. -/
theorem descend_spec (hnums : ∀ d ∈ nums, d.Pairwise (· ≤ ·))
    (hlast : (last.map Index.ids).Pairwise (· ≤ ·)) (pre : List ℕ) :
    (∃ s, descend pre (blockDims nums last) = .found (pre ++ s) ∧
        IsLeast (instances (blockDims nums last)) s) ∨
      ∃ y, descend pre (blockDims nums last) = .nothing y ∧ pre <+: y ∧
        instances (blockDims nums last) = ∅ := by
  induction nums generalizing pre with
  | nil =>
    have hdims : blockDims [] last = [last] := rfl
    rw [hdims, instances_last]
    cases last with
    | nil => exact .inr ⟨pre, rfl, prefix_rfl, by simp [keys]⟩
    | cons e es =>
      refine .inl ⟨e.ids, rfl, mem_keys_iff.mpr ⟨e, by simp, rfl⟩, fun s hs => ?_⟩
      rcases mem_cons.mp hs with rfl | hs
      · exact le_rfl
      · exact (pairwise_cons.mp hlast).1 s hs
  | cons d nums ih =>
    obtain ⟨hd, hnums'⟩ := forall_mem_cons.mp hnums
    rw [instances_cons]
    cases d with
    | nil => exact .inr ⟨pre, rfl, prefix_rfl, by simp⟩
    | cons n d =>
      have hstep : descend pre (blockDims ((n :: d) :: nums) last) =
          descend (pre ++ [n]) (blockDims nums last) := rfl
      rw [hstep]
      rcases ih hnums' (pre ++ [n]) with ⟨s, hs, hleast⟩ | ⟨y, hy, hpre, hnone⟩
      · exact .inl ⟨n :: s, by simpa using hs, isLeast_cons (isLeast_head hd) hleast⟩
      · exact .inr ⟨y, hy, (prefix_append pre [n]).trans hpre, by simp [hnone]⟩

/-! ### The last dimension -/

/-- A request ends inside an element: the comparison with it raises an error. -/
def Cuts (rest : List ℕ) (e : Index) : Prop := rest <+: e.ids ∧ rest ≠ e.ids

theorem compareIds_eq_none_iff (oid ns : List ℕ) :
    compareIds oid ns = none ↔ oid <+: ns ∧ oid ≠ ns := by
  induction ns generalizing oid with
  | nil => simp [compareIds]
  | cons n ns ih =>
    cases oid with
    | nil => simp [compareIds]
    | cons x oid =>
      rw [compareIds]
      by_cases hx : x = n
      · subst hx
        simp [ih]
      · have hne : (x : ℤ) - n ≠ 0 := by omega
        simp [hne, hx]

theorem compareIds_neg_iff (oid ns : List ℕ) :
    (∃ cmp < 0, compareIds oid ns = some cmp) ↔ oid < ns ∧ ¬ oid <+: ns := by
  induction ns generalizing oid with
  | nil => simp [compareIds]
  | cons n ns ih =>
    cases oid with
    | nil => simp [compareIds]
    | cons x oid =>
      rw [compareIds, cons_lt_cons_iff, cons_prefix_cons]
      by_cases hx : x = n
      · subst hx
        simp [ih]
      · have hne : (x : ℤ) - n ≠ 0 := by omega
        have hlt : (x : ℤ) - n < 0 ↔ x < n := by omega
        simp [hne, hx, hlt]

theorem Index.compare_eq_none_iff (e : Index) (hrest : rest ≠ []) :
    e.compare rest = none ↔ Cuts rest e := by
  cases e with
  | id n =>
    obtain ⟨x, xs, rfl⟩ := exists_cons_of_ne_nil hrest
    rw [Cuts, Index.ids, cons_prefix_cons, prefix_nil]
    refine iff_of_false (by simp [Index.compare]) ?_
    rintro ⟨⟨rfl, rfl⟩, hne⟩
    exact hne rfl
  | arr ns => exact compareIds_eq_none_iff rest ns

theorem Index.compare_neg_iff (e : Index) (hrest : rest ≠ []) :
    (∃ cmp < 0, e.compare rest = some cmp) ↔ rest < e.ids ∧ ¬ rest <+: e.ids := by
  cases e with
  | id n =>
    obtain ⟨x, xs, rfl⟩ := exists_cons_of_ne_nil hrest
    rw [Index.ids, cons_prefix_cons, prefix_nil, cons_lt_cons_iff]
    have hlt : (x : ℤ) - n < 0 ↔ x < n := by omega
    simp only [Index.compare, Option.some.injEq, exists_eq_right', hlt, not_lt_nil, and_false,
      or_false]
    constructor
    · intro h
      exact ⟨h, fun hx => absurd hx.1 h.ne⟩
    · exact And.left
  | arr ns => exact compareIds_neg_iff rest ns

/-- **The loop over the last dimension**: an error where the request ends inside an element, and
otherwise the least element behind the request. -/
theorem scan_last (hlast : (last.map Index.ids).Pairwise (· ≤ ·)) (hrest : rest ≠ []) (pos : ℕ) :
    (scan true rest pos last = .raised ∧ ∃ e ∈ last, Cuts rest e) ∨
      ((∀ e ∈ last, ¬ Cuts rest e) ∧
        ((∃ k e, scan true rest pos last = .less k e ∧ IsLeast (keys last ∩ Ioi rest) e.ids) ∨
          (scan true rest pos last = .missed ∧ keys last ∩ Ioi rest = ∅))) := by
  induction last generalizing pos with
  | nil => exact .inr ⟨by simp, .inr ⟨rfl, by simp [keys]⟩⟩
  | cons e es ih =>
    obtain ⟨he, hes⟩ := pairwise_cons.mp hlast
    rw [scan]
    cases hcmp : e.compare rest with
    | none => exact .inl ⟨rfl, e, by simp, (e.compare_eq_none_iff hrest).mp hcmp⟩
    | some cmp =>
      have huncut : ¬ Cuts rest e := by
        rw [← e.compare_eq_none_iff hrest, hcmp]
        simp
      by_cases hneg : cmp < 0
      · obtain ⟨hlt, hnp⟩ := (e.compare_neg_iff hrest).mp ⟨cmp, hneg, hcmp⟩
        refine .inr ⟨fun e' he' => ?_,
          .inl ⟨pos, e, by simp [hneg], ⟨⟨by simp [keys], hlt⟩, ?_⟩⟩⟩
        · -- the elements behind `e` leave the extensions of the request behind
          rcases mem_cons.mp he' with rfl | he'
          · exact huncut
          · intro hcut
            exact hnp (prefix_of_between prefix_rfl hcut.1 hlt.le
              (he _ (mem_map_of_mem he')))
        · rintro s ⟨hs, -⟩
          rcases mem_cons.mp hs with rfl | hs
          · exact le_rfl
          · exact he s hs
      · have hnlt : ¬ rest < e.ids := by
          intro hlt
          by_cases hp : rest <+: e.ids
          · exact huncut ⟨hp, hlt.ne⟩
          · obtain ⟨cmp', hneg', hcmp'⟩ := (e.compare_neg_iff hrest).mpr ⟨hlt, hp⟩
            rw [hcmp, Option.some.injEq] at hcmp'
            exact hneg (hcmp' ▸ hneg')
        have hkeys : keys (e :: es) ∩ Ioi rest = keys es ∩ Ioi rest := by
          ext s
          simp only [keys, map_cons, mem_cons, mem_inter_iff, mem_ofPred_eq, mem_Ioi]
          constructor
          · rintro ⟨rfl | hs, hlt⟩
            · exact absurd hlt hnlt
            · exact ⟨hs, hlt⟩
          · rintro ⟨hs, hlt⟩
            exact ⟨.inr hs, hlt⟩
        simp only [hneg, Bool.true_eq_false, and_false, if_false, hkeys]
        rcases ih hes (pos + 1) with ⟨hscan, e', he', hcut⟩ | ⟨hall, hcase⟩
        · exact .inl ⟨hscan, e', mem_cons_of_mem e he', hcut⟩
        · exact .inr ⟨forall_mem_cons.mpr ⟨huncut, hall⟩, hcase⟩

/-! ### When the iterator raises an error -/

/-- A request goes through the dimensions of numbers and ends inside an element of the last one. -/
def CutShort (last : List Index) : List (List ℕ) → List ℕ → Prop
  | [], rest => rest ≠ [] ∧ ∃ e ∈ last, Cuts rest e
  | d :: nums, x :: xs => x ∈ d ∧ CutShort last nums xs
  | _ :: _, [] => False

/-- Such a request is made up of one number out of every dimension, and a part of an element. -/
theorem cutShort_iff {oid : List ℕ} :
    CutShort last nums oid ↔ ∃ pre rest, oid = pre ++ rest ∧ List.Forall₂ (· ∈ ·) pre nums ∧
      rest ≠ [] ∧ ∃ e ∈ last, Cuts rest e := by
  induction nums generalizing oid with
  | nil =>
    constructor
    · intro h
      exact ⟨[], oid, rfl, .nil, h⟩
    · rintro ⟨_, rest, rfl, ⟨⟩, h⟩
      exact h
  | cons d nums ih =>
    constructor
    · intro h
      cases oid with
      | nil => exact h.elim
      | cons x xs =>
        obtain ⟨hx, hcut⟩ := h
        obtain ⟨pre, rest, rfl, hpre, hrest⟩ := ih.mp hcut
        exact ⟨x :: pre, rest, rfl, .cons hx hpre, hrest⟩
    · rintro ⟨_, rest, rfl, _ | ⟨hx, hpre⟩, hrest⟩
      exact ⟨hx, ih.mpr ⟨_, rest, rfl, hpre, hrest⟩⟩

theorem descend_ne_raised (pre : List ℕ) (dims : List (List Index)) :
    descend pre dims ≠ .raised := by
  induction dims generalizing pre with
  | nil => simp [descend]
  | cons d dims ih =>
    cases d with
    | nil => simp [descend]
    | cons e es => exact ih (pre ++ e.ids)

/-- The search in the last dimension. -/
theorem nextLast_cons (hlast : (last.map Index.ids).Pairwise (· ≤ ·)) (hne : last ≠ [])
    (pre : List ℕ) (hrest : rest ≠ []) :
    (nextLast last pre rest = .done .raised ∧ ∃ e ∈ last, Cuts rest e) ∨
      ((∀ e ∈ last, ¬ Cuts rest e) ∧
        ((∃ s, nextLast last pre rest = .done (.found (pre ++ s)) ∧
            IsLeast (keys last ∩ Ioi rest) s) ∨
          (nextLast last pre rest = .exhausted ∧ keys last ∩ Ioi rest = ∅))) := by
  obtain ⟨e, es, rfl⟩ := exists_cons_of_ne_nil hne
  obtain ⟨x, xs, rfl⟩ := exists_cons_of_ne_nil hrest
  rw [nextLast]
  rcases scan_last hlast hrest 0 with
    ⟨hscan, hcut⟩ | ⟨hall, ⟨k, e', hscan, hleast⟩ | ⟨hscan, hnone⟩⟩
  · exact .inl ⟨by rw [hscan], hcut⟩
  · exact .inr ⟨hall, .inl ⟨e'.ids, by rw [hscan], hleast⟩⟩
  · exact .inr ⟨hall, .inr ⟨by rw [hscan], hnone⟩⟩

/-- **When the iterator raises an error.** -/
theorem nextIndex_raised_iff (hlast : (last.map Index.ids).Pairwise (· ≤ ·)) (nums : List (List ℕ))
    (pre rest : List ℕ) :
    nextIndex last nums pre rest = .done .raised ↔ CutShort last nums rest := by
  induction nums generalizing pre rest with
  | nil =>
    rw [nextIndex, CutShort]
    by_cases hrest : rest = []
    · subst hrest
      cases last <;> simp [nextLast]
    by_cases hne : last = []
    · subst hne
      simp [nextLast]
    rcases nextLast_cons hlast hne pre hrest with ⟨hnext, hcut⟩ | ⟨hall, hcase⟩
    · exact iff_of_true hnext ⟨hrest, hcut⟩
    · have huncut : ¬ (rest ≠ [] ∧ ∃ e ∈ last, Cuts rest e) := by
        rintro ⟨-, e, he, hcut⟩
        exact hall e he hcut
      refine iff_of_false (fun h => ?_) huncut
      rcases hcase with ⟨s, hnext, -⟩ | ⟨hnext, -⟩ <;> simp [hnext] at h
  | cons d nums ih =>
    have hdown : ∀ n, descend (pre ++ [n]) (blockDims nums last) ≠ .raised :=
      fun n => descend_ne_raised _ _
    cases rest with
    | nil => cases d <;> simp [nextIndex, CutShort, hdown]
    | cons x xs =>
      cases d with
      | nil => simp [nextIndex, CutShort]
      | cons m d =>
        rw [nextIndex, CutShort, ← ih (pre ++ [x]) xs]
        by_cases hx : x ∈ m :: d
        · rw [if_pos hx]
          cases hnext : nextIndex last nums (pre ++ [x]) xs with
          | done r => simp [hx]
          | exhausted =>
            cases hget : (m :: d)[(m :: d).idxOf x + 1]? <;> simp [hdown]
        · rw [if_neg hx]
          cases hfind : (m :: d).find? (x < ·) <;> simp [hx, hdown]

/-! ### Turns -/

/-- The iterator **turns** from a request to the instance `s`, which is not behind it. A dimension
has the number of the request twice, and there is nothing left in the dimensions behind it: the
second one then comes with the least instance of those. Or there is an element without numbers,
which is found for a request that ends before it. -/
def Turns (last : List Index) : List (List ℕ) → List ℕ → List ℕ → Prop
  | [], rest, s => rest = [] ∧ s = [] ∧ .arr [] ∈ last
  | d :: nums, x :: xs, n :: s =>
    n = x ∧ x ∈ d ∧ (Turns last nums xs s ∨
      (2 ≤ d.count x ∧ (∀ s', ¬ Turns last nums xs s') ∧
        instances (blockDims nums last) ∩ Ioi xs = ∅ ∧
        IsLeast (instances (blockDims nums last)) s))
  | _, _, _ => False

/-- A turn does not lead behind the request. -/
theorem Turns.le (h : Turns last nums rest s) : s ≤ rest := by
  induction nums generalizing rest s with
  | nil =>
    obtain ⟨rfl, rfl, -⟩ := h
    exact le_rfl
  | cons d nums ih =>
    cases rest with
    | nil => exact h.elim
    | cons x xs =>
      cases s with
      | nil => exact h.elim
      | cons n s =>
        obtain ⟨rfl, -, hturn | ⟨-, -, hnone, hleast⟩⟩ := h
        · exact cons_le_cons n (ih hturn)
        · refine cons_le_cons n (not_lt.mp fun hlt => ?_)
          exact hnone.subset ⟨hleast.1, hlt⟩

/-- A dimension without repetitions is passed by a turn. -/
theorem Turns.cons (hd : d.Nodup) (h : Turns last (d :: nums) rest s) :
    ∃ x xs s', rest = x :: xs ∧ s = x :: s' ∧ x ∈ d ∧ Turns last nums xs s' := by
  cases rest with
  | nil => exact h.elim
  | cons x xs =>
    cases s with
    | nil => exact h.elim
    | cons n s =>
      obtain ⟨rfl, hx, hturn | ⟨hcount, -⟩⟩ := h
      · exact ⟨n, xs, s, rfl, rfl, hx, hturn⟩
      · have := nodup_iff_count_le_one.mp hd n
        omega

/-- There are no turns without repetitions and elements without numbers. -/
theorem not_turns (hlast : .arr [] ∉ last) (hnums : ∀ d ∈ nums, d.Nodup) (rest s : List ℕ) :
    ¬ Turns last nums rest s := by
  induction nums generalizing rest s with
  | nil =>
    rintro ⟨-, -, hmem⟩
    exact hlast hmem
  | cons d nums ih =>
    obtain ⟨hd, hnums'⟩ := forall_mem_cons.mp hnums
    intro h
    obtain ⟨x, xs, s', -, -, -, hturn⟩ := h.cons hd
    exact ih hnums' xs s' hturn

/-! ### The least instance behind the request -/

/-- What a search in the dimensions `nums` and `last` means: the least instance behind the request
or a turn, no instances at all, or none behind the request. -/
def Sought.Means (last : List Index) (nums : List (List ℕ)) (pre rest : List ℕ) : Sought → Prop
  | .done (.found oid) => ∃ s, oid = pre ++ s ∧
      (IsLeast (instances (blockDims nums last) ∩ Ioi rest) s ∨ Turns last nums rest s)
  | .done (.nothing y) => pre <+: y ∧ instances (blockDims nums last) = ∅
  | .done .raised => CutShort last nums rest
  | .exhausted => instances (blockDims nums last) ∩ Ioi rest = ∅ ∧ ∀ s, ¬ Turns last nums rest s

theorem nextLast_means (hlast : (last.map Index.ids).Pairwise (· ≤ ·)) (pre rest : List ℕ) :
    (nextLast last pre rest).Means last [] pre rest := by
  have hdims : instances (blockDims [] last) = keys last := instances_last last
  by_cases hne : last = []
  · subst hne
    exact ⟨prefix_append pre rest, by rw [hdims]; simp [keys]⟩
  by_cases hrest : rest = []
  · subst hrest
    obtain ⟨e, es, rfl⟩ := exists_cons_of_ne_nil hne
    refine ⟨e.ids, rfl, ?_⟩
    by_cases hids : e.ids = []
    · refine .inr ⟨rfl, hids, ?_⟩
      cases e with
      | id n => cases hids
      | arr ns =>
        obtain rfl : ns = [] := hids
        exact mem_cons_self
    · refine .inl ⟨⟨hdims ▸ mem_keys_iff.mpr ⟨e, by simp, rfl⟩, nil_lt_iff.mpr hids⟩, ?_⟩
      rintro s ⟨hs, -⟩
      rw [hdims] at hs
      rcases mem_cons.mp hs with rfl | hs
      · exact le_rfl
      · exact (pairwise_cons.mp hlast).1 s hs
  have hturn : ∀ s, ¬ Turns last [] rest s := fun s h => hrest h.1
  rcases nextLast_cons hlast hne pre hrest with
    ⟨hnext, hcut⟩ | ⟨-, ⟨s, hnext, hleast⟩ | ⟨hnext, hnone⟩⟩
  · rw [hnext]
    exact ⟨hrest, hcut⟩
  · rw [hnext]
    exact ⟨s, rfl, .inl (hdims ▸ hleast)⟩
  · rw [hnext]
    exact ⟨hdims ▸ hnone, hturn⟩

section Dimension

variable {last : List Index} {d : List ℕ} {nums : List (List ℕ)} {pre xs : List ℕ} {x : ℕ}

/-- The next number of a dimension, with the first elements behind it. -/
theorem means_next (hnums : ∀ d ∈ nums, d.Pairwise (· ≤ ·))
    (hlast : (last.map Index.ids).Pairwise (· ≤ ·))
    (hx : x ∈ d → instances (blockDims nums last) ∩ Ioi xs = ∅)
    (hn : IsLeast ({m | m ∈ d} ∩ Ioi x) n) :
    (Sought.done (descend (pre ++ [n]) (blockDims nums last))).Means last (d :: nums) pre
      (x :: xs) := by
  rcases descend_spec hnums hlast (pre ++ [n]) with ⟨s, hs, hleast⟩ | ⟨y, hy, hpre, hnone⟩
  · rw [hs]
    refine ⟨n :: s, by simp, .inl ?_⟩
    rw [instances_cons]
    exact isLeast_cons_next hx hn hleast
  · rw [hy]
    exact ⟨(prefix_append pre [n]).trans hpre, by rw [instances_cons]; simp [hnone]⟩

/-- The element is kept: what was found behind it is found. -/
theorem Sought.Means.kept {r : IndexNext} (hx : x ∈ d)
    (h : (Sought.done r).Means last nums (pre ++ [x]) xs) :
    (Sought.done r).Means last (d :: nums) pre (x :: xs) := by
  cases r with
  | found oid =>
    obtain ⟨s, rfl, hleast | hturn⟩ := h
    · refine ⟨x :: s, by simp, .inl ?_⟩
      rw [instances_cons]
      exact isLeast_cons_kept hx hleast
    · exact ⟨x :: s, by simp, .inr ⟨rfl, hx, .inl hturn⟩⟩
  | nothing y =>
    obtain ⟨hpre, hnone⟩ := h
    exact ⟨(prefix_append pre [x]).trans hpre, by rw [instances_cons]; simp [hnone]⟩
  | raised => exact ⟨hx, h⟩

/-- Nothing is left behind the element: the one at the next position is taken. -/
theorem means_after (hd : d.Pairwise (· ≤ ·)) (hnums : ∀ d ∈ nums, d.Pairwise (· ≤ ·))
    (hlast : (last.map Index.ids).Pairwise (· ≤ ·)) (hx : x ∈ d)
    (hnone : instances (blockDims nums last) ∩ Ioi xs = ∅) (hturn : ∀ s, ¬ Turns last nums xs s)
    (hget : d[d.idxOf x + 1]? = some n) :
    (Sought.done (descend (pre ++ [n]) (blockDims nums last))).Means last (d :: nums) pre
      (x :: xs) := by
  by_cases heq : x = n
  · -- the number is there twice
    subst heq
    have hcount := (getElem?_idxOf_succ_iff hd hx).mp hget
    rcases descend_spec hnums hlast (pre ++ [x]) with ⟨s, hs, hleast⟩ | ⟨y, hy, hpre, hempty⟩
    · rw [hs]
      exact ⟨x :: s, by simp, .inr ⟨rfl, hx, .inr ⟨hcount, hturn, hnone, hleast⟩⟩⟩
    · rw [hy]
      exact ⟨(prefix_append pre [x]).trans hpre, by rw [instances_cons]; simp [hempty]⟩
  · exact means_next hnums hlast (fun _ => hnone) (isLeast_getElem?_idxOf hd hx hget heq)

end Dimension

/-- **What the iterator computes, in terms of instances.** The induction is over the dimensions. -/
theorem nextIndex_spec (hlast : (last.map Index.ids).Pairwise (· ≤ ·))
    (hnums : ∀ d ∈ nums, d.Pairwise (· ≤ ·)) (pre rest : List ℕ) :
    (nextIndex last nums pre rest).Means last nums pre rest := by
  induction nums generalizing pre rest with
  | nil => exact nextLast_means hlast pre rest
  | cons d nums ih =>
    obtain ⟨hd, hnums'⟩ := forall_mem_cons.mp hnums
    cases d with
    | nil =>
      rw [nextIndex]
      exact ⟨prefix_append pre rest, by rw [instances_cons]; simp⟩
    | cons m d =>
      cases rest with
      | nil =>
        rw [nextIndex]
        rcases descend_spec hnums' hlast (pre ++ [m]) with
          ⟨s, hs, hleast⟩ | ⟨y, hy, hpre, hnone⟩
        · rw [hs]
          refine ⟨m :: s, by simp, .inl ?_⟩
          rw [instances_cons, cons_inter_nil]
          exact isLeast_cons (isLeast_head hd) hleast
        · rw [hy]
          refine ⟨(prefix_append pre [m]).trans hpre, ?_⟩
          rw [instances_cons]
          simp [hnone]
      | cons x xs =>
        rw [nextIndex]
        by_cases hx : x ∈ m :: d
        · rw [if_pos hx]
          have hdeep := ih hnums' (pre ++ [x]) xs
          cases hnext : nextIndex last nums (pre ++ [x]) xs with
          | done r =>
            rw [hnext] at hdeep
            exact hdeep.kept hx
          | exhausted =>
            rw [hnext] at hdeep
            -- nothing is left below `x`, so that its next position is tried
            obtain ⟨hnone, hturn⟩ := hdeep
            cases hget : (m :: d)[(m :: d).idxOf x + 1]? with
            | some n => exact means_after hd hnums' hlast hx hnone hturn hget
            | none =>
              refine ⟨?_, fun s hs => ?_⟩
              · rw [instances_cons]
                exact cons_inter_eq_empty (fun _ => hnone)
                  (getElem?_idxOf_none hd hx hget)
              · cases s with
                | nil => exact hs
                | cons n s =>
                  obtain ⟨rfl, -, hdeeper | ⟨hcount, -⟩⟩ := hs
                  · exact hturn s hdeeper
                  · rw [(getElem?_idxOf_succ_iff hd hx).mpr hcount] at hget
                    cases hget
        · rw [if_neg hx]
          have hout : x ∈ m :: d → instances (blockDims nums last) ∩ Ioi xs = ∅ :=
            fun h => absurd h hx
          -- `x` is no element: the first greater one comes next
          cases hfind : (m :: d).find? (x < ·) with
          | some n => exact means_next hnums' hlast hout (isLeast_find? hd hfind)
          | none =>
            refine ⟨?_, fun s hs => ?_⟩
            · rw [instances_cons]
              refine cons_inter_eq_empty hout (eq_empty_of_forall_notMem ?_)
              rintro k ⟨hk, hxk⟩
              exact absurd hxk (by simpa using find?_eq_none.mp hfind k hk)
            · cases s with
              | nil => exact hs
              | cons n s => exact hx hs.2.1

theorem CutShort.exists_behind (h : CutShort last nums rest) :
    (instances (blockDims nums last) ∩ Ioi rest).Nonempty := by
  induction nums generalizing rest with
  | nil =>
    obtain ⟨-, e, he, hpre, hne⟩ := h
    refine ⟨e.ids, ?_, lt_of_prefix_of_ne hpre hne⟩
    exact (instances_last last).ge (mem_keys_iff.mpr ⟨e, he, rfl⟩)
  | cons d nums ih =>
    cases rest with
    | nil => exact h.elim
    | cons x xs =>
      obtain ⟨hx, hcut⟩ := h
      obtain ⟨s, hs, hlt⟩ := ih hcut
      rw [instances_cons]
      exact ⟨x :: s, mem_cons_inter_iff.mpr ⟨x, hx, s, hs, rfl, .inr ⟨rfl, hlt⟩⟩⟩

/-- The iterator does turn. -/
theorem Turns.found (hlast : (last.map Index.ids).Pairwise (· ≤ ·))
    (hnums : ∀ d ∈ nums, d.Pairwise (· ≤ ·)) (h : Turns last nums rest s) (pre : List ℕ) :
    nextIndex last nums pre rest = .done (.found (pre ++ s)) := by
  induction nums generalizing rest s pre with
  | nil =>
    obtain ⟨rfl, rfl, hmem⟩ := h
    obtain ⟨e, es, rfl⟩ := exists_cons_of_ne_nil (ne_nil_of_mem hmem)
    have hids : e.ids = [] := by
      rcases mem_cons.mp hmem with rfl | hmem
      · rfl
      · have hle := (pairwise_cons.mp hlast).1 [] (mem_map_of_mem hmem)
        exact le_antisymm hle (le_of_extends nil_prefix)
    rw [nextIndex, nextLast, hids]
  | cons d nums ih =>
    obtain ⟨hd, hnums'⟩ := forall_mem_cons.mp hnums
    rcases rest with _ | ⟨x, xs⟩
    · exact h.elim
    rcases s with _ | ⟨n, s⟩
    · exact h.elim
    obtain ⟨rfl, hx, hcase⟩ := h
    obtain ⟨m, d, rfl⟩ := exists_cons_of_ne_nil (ne_nil_of_mem hx)
    rw [nextIndex, if_pos hx]
    rcases hcase with hturn | ⟨hcount, hturn, hnone, hleast⟩
    · rw [ih hnums' hturn (pre ++ [n])]
      simp
    · -- the dimensions behind have nothing left
      have hspec := nextIndex_spec hlast hnums' (pre ++ [n]) xs
      cases hnext : nextIndex last nums (pre ++ [n]) xs with
      | exhausted =>
        simp only [(getElem?_idxOf_succ_iff hd hx).mpr hcount]
        rcases descend_spec hnums' hlast (pre ++ [n]) with
          ⟨s', hs', hleast'⟩ | ⟨-, -, -, hempty⟩
        · rw [hs', hleast.unique hleast']
          simp
        · exact absurd hleast.1 (by simp [hempty])
      | done r =>
        rw [hnext] at hspec
        exfalso
        cases r with
        | found oid =>
          obtain ⟨s', -, hbehind | hturn'⟩ := hspec
          · exact hnone.subset hbehind.1
          · exact hturn s' hturn'
        | nothing y => exact absurd hleast.1 (by simp [hspec.2])
        | raised =>
          obtain ⟨s', hs'⟩ := CutShort.exists_behind hspec
          exact hnone.subset hs'

/-! ### The iterator -/

/-- What the iterator is meant to return: the least instance behind the request, or nothing when
there is none. -/
def IndexNext.Answers (dims : List (List Index)) (oid : List ℕ) : IndexNext → Prop
  | .found r => IsLeast (instances dims ∩ Ioi oid) r
  | .nothing _ => instances dims ∩ Ioi oid = ∅
  | .raised => False

/-- Without repetitions the iterator returns what it is meant to, unless it raises an error. -/
theorem groupIndexTableGetnext_answers_iff (hlast : (last.map Index.ids).Pairwise (· ≤ ·))
    (hne : .arr [] ∉ last) (hnums : ∀ d ∈ nums, d.Pairwise (· < ·)) (oid : List ℕ) :
    (groupIndexTableGetnext oid (blockDims nums last)).Answers (blockDims nums last) oid ↔
      ¬ CutShort last nums oid := by
  have hsorted : ∀ d ∈ nums, d.Pairwise (· ≤ ·) := fun d hd => (hnums d hd).imp le_of_lt
  have hnodup : ∀ d ∈ nums, d.Nodup := fun d hd => (hnums d hd).imp ne_of_lt
  have hspec := nextIndex_spec hlast hsorted [] oid
  have hraised := nextIndex_raised_iff hlast nums [] oid
  rw [groupIndexTableGetnext_eq hsorted]
  cases hnext : nextIndex last nums [] oid with
  | exhausted =>
    rw [hnext] at hspec hraised
    exact iff_of_true hspec.1 (by simpa using hraised)
  | done r =>
    rw [hnext] at hspec hraised
    cases r with
    | found oid' =>
      obtain ⟨s, hs, hleast | hturn⟩ := hspec
      · rw [nil_append] at hs
        subst hs
        exact iff_of_true hleast (by simpa using hraised)
      · exact absurd hturn (not_turns hne hnodup oid s)
    | nothing y =>
      have hempty : instances (blockDims nums last) ∩ Ioi oid = ∅ := by simp [hspec.2]
      exact iff_of_true hempty (by simpa using hraised)
    | raised => exact iff_of_false id (not_not.mpr hspec)

/-- **Dimensions of numbers.** For dimensions of strictly ascending numbers, empty ones among them,
the iterator returns the least instance behind the request, however long that is. -/
theorem groupIndexTableGetnext_numbers (d : List ℕ) (dims : List (List ℕ))
    (hdims : ∀ d' ∈ d :: dims, d'.Pairwise (· < ·)) (oid : List ℕ) :
    (groupIndexTableGetnext oid ((d :: dims).map (List.map .id))).Answers
      ((d :: dims).map (List.map .id)) oid := by
  obtain ⟨nums, l, heq⟩ : ∃ nums l, d :: dims = nums ++ [l] :=
    ⟨_, _, (dropLast_append_getLast (cons_ne_nil d dims)).symm⟩
  rw [heq] at hdims ⊢
  have hl : ((l.map Index.id).map Index.ids).Pairwise (· ≤ ·) := by
    rw [map_map, pairwise_map]
    refine (hdims l (by simp)).imp fun hlt => ?_
    exact (cons_lt_cons_iff.mpr (.inl hlt)).le
  rw [← blockDims_ids, groupIndexTableGetnext_answers_iff hl (by simp)
    (fun d' hd' => hdims d' (by simp [hd'])), cutShort_iff]
  -- no request ends inside a number
  rintro ⟨pre, rest, -, -, hrest, e, he, hcut⟩
  obtain ⟨n, -, rfl⟩ := mem_map.mp he
  rw [← Index.compare_eq_none_iff _ hrest] at hcut
  obtain ⟨x, xs, rfl⟩ := exists_cons_of_ne_nil hrest
  cases hcut

theorem groupIndexTableGetnext_numbers_cascade :
    (groupIndexTableGetnext [1, 1, 2, 7, 4] ([[1], [1], [1, 2], [3, 7], [], [5]].map
      (List.map .id))).Answers ([[1], [1], [1, 2], [3, 7], [], [5]].map (List.map .id))
        [1, 1, 2, 7, 4] ∧
      (groupIndexTableGetnext [1, 1, 1, 7, 9, 2] ([[1], [1], [1, 2], [3, 7], [4, 9]].map
        (List.map .id))).Answers ([[1], [1], [1, 2], [3, 7], [4, 9]].map (List.map .id))
        [1, 1, 1, 7, 9, 2] ∧
      groupIndexTableGetnext [1, 1, 1, 7, 9, 2] ([[1], [1], [1, 2], [3, 7], [4, 9]].map
        (List.map .id)) = .found [1, 1, 2, 3, 4] :=
  ⟨groupIndexTableGetnext_numbers _ _ (by decide) _,
    groupIndexTableGetnext_numbers _ _ (by decide) _,
    by decide⟩

/-- **A last dimension of arrays.** The iterator returns the least instance behind the request
unless the request ends inside an array: it is made up of numbers out of the dimensions before, and
of a proper part of an array. Then it raises an error. -/
theorem groupIndexTableGetnext_arrays_iff (nums ks : List (List ℕ))
    (hnums : ∀ d ∈ nums, d.Pairwise (· < ·)) (hks : ks.Pairwise (· < ·)) (hne : ∀ k ∈ ks, k ≠ [])
    (oid : List ℕ) :
    (groupIndexTableGetnext oid (blockDims nums (ks.map .arr))).Answers
        (blockDims nums (ks.map .arr)) oid ↔
      ¬ ∃ pre rest, oid = pre ++ rest ∧ List.Forall₂ (· ∈ ·) pre nums ∧ rest ≠ [] ∧
        ∃ k ∈ ks, rest <+: k ∧ rest ≠ k := by
  have hlast : ((ks.map Index.arr).map Index.ids).Pairwise (· ≤ ·) := by
    rw [map_map, pairwise_map]
    exact hks.imp le_of_lt
  have hnil : Index.arr [] ∉ ks.map .arr := by
    intro hmem
    obtain ⟨k, hk, heq⟩ := mem_map.mp hmem
    exact hne k hk (Index.arr.inj heq)
  have hcuts : ∀ rest, (∃ e ∈ ks.map Index.arr, Cuts rest e) ↔ ∃ k ∈ ks, rest <+: k ∧ rest ≠ k := by
    intro rest
    simp [Cuts, Index.ids]
  rw [groupIndexTableGetnext_answers_iff hlast hnil hnums, cutShort_iff]
  simp only [hcuts]

/-- A request that ends with a whole array is answered. -/
theorem groupIndexTableGetnext_arrays_rows :
    (groupIndexTableGetnext [1, 1, 2, 10, 1] (blockDims [[1], [1], [2, 3]]
      [.arr [10, 1], .arr [10, 2]])).Answers (blockDims [[1], [1], [2, 3]]
      [.arr [10, 1], .arr [10, 2]]) [1, 1, 2, 10, 1] := by
  refine (groupIndexTableGetnext_arrays_iff [[1], [1], [2, 3]] [[10, 1], [10, 2]] (by decide)
    (by decide) (by decide) _).mpr ?_
  rintro ⟨pre, rest, heq, hpre, -, k, hk, hcut, hne⟩
  obtain ⟨-, rfl⟩ := append_inj heq (show [1, 1, 2].length = pre.length from hpre.length_eq.symm)
  have hwhole : ∀ k ∈ [[10, 1], [10, 2]], [10, 1] <+: k → [10, 1] = k := by decide
  exact hne (hwhole k hk hcut)

/-- A request that ends in the middle of an array. -/
theorem groupIndexTableGetnext_arrays_raised :
    ¬ (groupIndexTableGetnext [1, 1, 2, 10] (blockDims [[1], [1], [2, 3]]
      [.arr [10, 1], .arr [10, 2]])).Answers (blockDims [[1], [1], [2, 3]]
      [.arr [10, 1], .arr [10, 2]]) [1, 1, 2, 10] := by
  have h : groupIndexTableGetnext [1, 1, 2, 10] (blockDims [[1], [1], [2, 3]]
      [.arr [10, 1], .arr [10, 2]]) = .raised := by decide
  rw [h]
  exact id

end SmithSnmp
