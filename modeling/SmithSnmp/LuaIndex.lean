import Mathlib.Data.List.Basic
import Mathlib.Data.List.Count
import Mathlib.Algebra.Ring.Nat
import Mathlib.Tactic.Common

/-!
# The Index Iterator

The Lua side of the agent describes the instances of a group by index blocks: lists of dimensions,
each of them a sorted list of index numbers, the last one maybe of arrays of numbers. An instance is
a choice of one index out of every dimension. `getnext` looks for the instance behind a request. It
follows the request from dimension to dimension, records where it was, and goes back when there is
nothing left in a dimension.

The recursion of `getnext` is a tail call with all of its variables, so it is modelled with fuel.
`nextIndex` says what it computes, by recursion over the dimensions and with neither records nor
fuel.

## Main results

* `groupIndexTableGetnext_eq`: the iterator computes `nextIndex`.
* `nextIndex_instance`: what it finds is an instance.
* `nextIndex_stalls_iff`: when it finds an instance again that the request goes beyond.
-/

namespace SmithSnmp

open List

variable {d pre oid xs idx y l : List ℕ} {fuel n x : ℕ} {nums : List (List ℕ)}

/-! ### Indexes -/

/-- The numbers at the maximal runs of digits, as `string.gmatch` finds them; `run` is the
number read so far in the current run. -/
def digitRuns : Option ℕ → List Char → List ℕ
  | run, [] => run.toList
  | run, c :: cs =>
    if c.isDigit then digitRuns (some (run.getD 0 * 10 + (c.toNat - '0'.toNat))) cs
    else run.toList ++ digitRuns none cs

/-- An element of a dimension: a number, or an array of them. -/
inductive Index where
  | id (n : ℕ)
  | arr (ns : List ℕ)
deriving DecidableEq, Repr

/-- The numbers of an index; `elem_len` is their number. -/
def Index.ids : Index → List ℕ
  | .id n => [n]
  | .arr ns => ns

/-- `elem_len` -/
def Index.elemLen (e : Index) : ℕ := e.ids.length

/-- The loop of `compare` over an array. `none` is the error of arithmetic on nil, where the OID
ends inside the array. -/
def compareIds : List ℕ → List ℕ → Option ℤ
  | oid, [] => some oid.length
  | [], _ :: _ => none
  | x :: oid, n :: ns => if (x : ℤ) - n ≠ 0 then some (x - n) else compareIds oid ns

/-- `compare` for the part of the OID from its offset on. -/
def Index.compare : Index → List ℕ → Option ℤ
  | .id n, x :: _ => some (x - n)
  | .id _, [] => none
  | .arr ns, oid => compareIds oid ns

/-- Where the loop over a dimension ends. -/
inductive Scan where
  | raised
  | missed
  | equal (pos : ℕ) (e : Index)
  | less (pos : ℕ) (e : Index)
deriving DecidableEq, Repr

/-- The loop of `getnext` over the elements of a dimension, from position `pos` on. An equal element
counts unless the dimension is the last one. -/
def scan (last : Bool) (oid : List ℕ) : ℕ → List Index → Scan
  | _, [] => .missed
  | pos, e :: es =>
    match e.compare oid with
    | none => .raised
    | some cmp =>
      if cmp = 0 ∧ last = false then .equal pos e
      else if cmp < 0 then .less pos e
      else scan last oid (pos + 1) es

/-! ### The iterator -/

/-- An entry of `record` with its dimension. -/
structure Level where
  dim : List Index
  offset : ℕ
  pos : ℕ

/-- What `getnext` returns: the OID, an empty table beside the OID as it was left, or an error. -/
inductive IndexNext where
  | found (oid : List ℕ)
  | nothing (oid : List ℕ)
  | raised
deriving DecidableEq, Repr

/-- The loop that goes back to a dimension with an element left: its record and that element, the
records before it and the dimensions behind it. -/
def backtrack : List Level → List (List Index) →
    Option (Level × Index × List Level × List (List Index))
  | [], _ => none
  | l :: record, dims =>
    match l.dim[l.pos + 1]? with
    | some e => some (l, e, record, dims)
    | none => backtrack record (l.dim :: dims)

/-- `getnext` at the dimension `dim`. `record` has the dimensions before it, the last one first, and
`dims` the ones behind it. Positions and offsets count from zero. -/
def getnext : ℕ → List ℕ → ℕ → List Level → List Index → List (List Index) → IndexNext
  | 0, _, _, _, _, _ => .raised
  | fuel + 1, oid, offset, record, dim, dims =>
    let goOn (oid : List ℕ) (pos : ℕ) (e : Index) : IndexNext :=
      match dims with
      | [] => .found oid
      | dim' :: dims' =>
        getnext fuel oid (offset + e.elemLen) (⟨dim, offset, pos⟩ :: record) dim' dims'
    match dim, oid.drop offset with
    -- empty
    | [], _ => .nothing oid
    -- point to the first element
    | e :: _, [] => goOn (oid ++ e.ids) 0 e
    | _ :: _, _ :: _ =>
      match scan dims.isEmpty (oid.drop offset) 0 dim with
      | .raised => .raised
      | .equal pos e => goOn oid pos e
      -- set it to me
      | .less pos e => goOn (oid.take offset ++ e.ids) pos e
      | .missed =>
        match backtrack record (dim :: dims) with
        | none => .nothing oid
        | some (l, e, record, dims) =>
          getnext fuel (oid.take l.offset ++ e.ids) l.offset record l.dim dims

/-- `group_index_table_getnext`, with fuel for one way down and another one after a step back. -/
def groupIndexTableGetnext (oid : List ℕ) : List (List Index) → IndexNext
  | [] => .raised
  | dim :: dims => getnext (2 * dims.length + 2) oid 0 [] dim dims

/-! ### What it computes -/

/-- The first elements of all dimensions, behind `pre`. -/
def descend : List ℕ → List (List Index) → IndexNext
  | pre, [] => .found pre
  | pre, [] :: _ => .nothing pre
  | pre, (e :: _) :: dims => descend (pre ++ e.ids) dims

/-- A result, or a dimension without anything left. -/
inductive Sought where
  | done (r : IndexNext)
  | exhausted
deriving DecidableEq, Repr

/-- The search in the last dimension. -/
def nextLast (last : List Index) (pre rest : List ℕ) : Sought :=
  match last, rest with
  | [], _ => .done (.nothing (pre ++ rest))
  | e :: _, [] => .done (.found (pre ++ e.ids))
  | _ :: _, _ :: _ =>
    match scan true rest 0 last with
    | .less _ e => .done (.found (pre ++ e.ids))
    | .missed => .exhausted
    | _ => .done .raised

/-- The dimensions of a block: numbers, and a last dimension of any elements. -/
def blockDims (nums : List (List ℕ)) (last : List Index) : List (List Index) :=
  nums.map (List.map Index.id) ++ [last]

/-- **What the iterator computes** for `rest` of a request, in the dimensions `nums` and `last`
behind the numbers `pre` of the dimensions before. An element is kept as long as there is something
behind it, and then the one at the next position is taken. -/
def nextIndex (last : List Index) : List (List ℕ) → List ℕ → List ℕ → Sought
  | [], pre, rest => nextLast last pre rest
  | d :: nums, pre, rest =>
    match d, rest with
    | [], _ => .done (.nothing (pre ++ rest))
    | n :: _, [] => .done (descend (pre ++ [n]) (blockDims nums last))
    | _ :: _, x :: xs =>
      if x ∈ d then
        match nextIndex last nums (pre ++ [x]) xs with
        | .done r => .done r
        | .exhausted =>
          match d[d.idxOf x + 1]? with
          | some n => .done (descend (pre ++ [n]) (blockDims nums last))
          | none => .exhausted
      else
        match d.find? (x < ·) with
        | some n => .done (descend (pre ++ [n]) (blockDims nums last))
        | none => .exhausted

/-! ### The loop over a dimension -/

/-- The loop over numbers that are not the last dimension. -/
theorem scan_ids (hd : d.Pairwise (· ≤ ·)) (x : ℕ) (xs : List ℕ) (pos : ℕ) :
    scan false (x :: xs) pos (d.map Index.id) =
      if x ∈ d then .equal (pos + d.idxOf x) (.id x)
      else match d.find? (x < ·) with
        | some n => .less (pos + d.idxOf n) (.id n)
        | none => .missed := by
  induction d generalizing pos with
  | nil => rfl
  | cons n d ih =>
    obtain ⟨hn, hd'⟩ := pairwise_cons.mp hd
    rw [map_cons, scan]
    simp only [Index.compare]
    rcases lt_trichotomy x n with hlt | rfl | hgt
    · have hne : ((x : ℤ) - n) ≠ 0 := by omega
      have hneg : ((x : ℤ) - n) < 0 := by omega
      have hnotin : x ∉ n :: d := by
        rintro hmem
        rcases mem_cons.mp hmem with rfl | hmem
        · exact lt_irrefl _ hlt
        · exact absurd (hn x hmem) (not_le.mpr hlt)
      simp [hne, hneg, hnotin, hlt]
    · simp
    · have hne : ((x : ℤ) - n) ≠ 0 := by omega
      have hpos : ¬ ((x : ℤ) - n) < 0 := by omega
      have hidx : ∀ m, n < m → pos + 1 + d.idxOf m = pos + (n :: d).idxOf m := by
        intro m hm
        rw [idxOf_cons_ne d (Nat.ne_of_lt hm)]
        omega
      have hmem : x ∈ n :: d ↔ x ∈ d := by
        simp [mem_cons, Nat.ne_of_gt hgt]
      have hfind : (n :: d).find? (x < ·) = d.find? (x < ·) := by
        rw [find?_cons_of_neg]
        simpa using Nat.le_of_lt hgt
      simp only [hne, hpos, false_and, if_false, ih hd', hmem, hfind, hidx x hgt]
      cases hfound : d.find? (x < ·) with
      | none => rfl
      | some m =>
        have hxm : x < m := by simpa using find?_some hfound
        simp only [hidx m (Nat.lt_trans hgt hxm)]

theorem scan_last_ne_equal (oid : List ℕ) (pos : ℕ) (d : List Index) (k : ℕ) (e : Index) :
    scan true oid pos d ≠ .equal k e := by
  induction d generalizing pos with
  | nil => simp [scan]
  | cons n d ih =>
    rw [scan]
    cases n.compare oid with
    | none => simp
    | some cmp =>
      by_cases hcmp : cmp < 0
      · simp [hcmp]
      · simpa [hcmp] using ih (pos + 1)

/-! ### The iterator computes it -/

/-- The iterator at the end of the request: the first elements. -/
theorem getnext_descend (dim : List Index) (dims : List (List Index)) (hfuel : dims.length < fuel)
    (pre : List ℕ) (record : List Level) :
    getnext fuel pre pre.length record dim dims = descend pre (dim :: dims) := by
  induction dims generalizing dim fuel pre record with
  | nil =>
    obtain ⟨fuel, rfl⟩ := Nat.exists_eq_succ_of_ne_zero (Nat.ne_of_gt hfuel)
    cases dim <;> simp [getnext, descend]
  | cons dim' dims ih =>
    obtain ⟨fuel, rfl⟩ := Nat.exists_eq_succ_of_ne_zero (Nat.ne_of_gt (Nat.zero_lt_of_lt hfuel))
    have hfuel' : dims.length < fuel := Nat.lt_of_succ_lt_succ hfuel
    cases dim with
    | nil => simp [getnext, descend]
    | cons e es =>
      have hlen : pre.length + e.elemLen = (pre ++ e.ids).length := by
        rw [length_append, Index.elemLen]
      simp only [getnext, drop_length, hlen]
      exact ih dim' hfuel' _ _

/-- What the iterator does when a dimension has nothing left. -/
def afterMiss (fuel : ℕ) (oid : List ℕ) (record : List Level) (dims : List (List Index)) :
    IndexNext :=
  match backtrack record dims with
  | none => .nothing oid
  | some (l, e, record, dims) =>
    getnext fuel (oid.take l.offset ++ e.ids) l.offset record l.dim dims

/-- The outcome of a search in the dimensions behind `record`. -/
def Outcome (fuel : ℕ) (oid : List ℕ) (record : List Level) (dims : List (List Index))
    (r : IndexNext) : Sought → Prop
  | .done r' => r = r'
  | .exhausted => ∃ fuel', fuel ≤ fuel' + dims.length ∧ r = afterMiss fuel' oid record dims

/-- The iterator in the last dimension. -/
theorem getnext_last (last : List Index) (fuel : ℕ) (pre rest : List ℕ) (record : List Level) :
    Outcome (fuel + 1) (pre ++ rest) record [last]
      (getnext (fuel + 1) (pre ++ rest) pre.length record last []) (nextLast last pre rest) := by
  have hdrop : (pre ++ rest).drop pre.length = rest := drop_left
  have htake : (pre ++ rest).take pre.length = pre := take_left
  cases last with
  | nil => simp [getnext, nextLast, Outcome]
  | cons e es =>
    cases rest with
    | nil => simp [getnext, nextLast, Outcome]
    | cons x xs =>
      simp only [getnext, nextLast, hdrop, htake, isEmpty_nil]
      cases hscan : scan true (x :: xs) 0 (e :: es) with
      | raised => rfl
      | missed => exact ⟨fuel, by simp, rfl⟩
      | less pos n => rfl
      | equal pos n => exact absurd hscan (scan_last_ne_equal _ _ _ _ _)

/-- The iterator after a step back to an element of a dimension. It looks for the element again, and
goes on with the first elements. -/
theorem getnext_again (hd : d.Pairwise (· ≤ ·)) (hn : n ∈ d) (pre : List ℕ) (record : List Level)
    (dim : List Index) (dims : List (List Index)) (hfuel : dims.length + 1 < fuel) :
    getnext fuel (pre ++ [n]) pre.length record (d.map Index.id) (dim :: dims) =
      descend (pre ++ [n]) (dim :: dims) := by
  obtain ⟨fuel, rfl⟩ := Nat.exists_eq_succ_of_ne_zero (Nat.ne_of_gt (Nat.zero_lt_of_lt hfuel))
  have hdrop : (pre ++ [n]).drop pre.length = [n] := drop_left
  have hlen : pre.length + (Index.id n).elemLen = (pre ++ [n]).length := by
    rw [length_append]
    rfl
  have hscan := scan_ids hd n [] 0
  rw [if_pos hn, Nat.zero_add] at hscan
  cases d with
  | nil => cases hn
  | cons m d =>
    rw [map_cons] at hscan
    simp only [getnext, map_cons, hdrop, isEmpty_cons, hscan, hlen]
    exact getnext_descend dim dims (Nat.lt_of_succ_lt_succ hfuel) _ _

/-- **The iterator, dimension by dimension.** The induction is over the dimensions; `exhausted` is
where the records of the dimensions before come in. -/
theorem getnext_outcome (hnums : ∀ d ∈ nums, d.Pairwise (· ≤ ·)) (last : List Index)
    {dim : List Index} {dims : List (List Index)} (hdims : blockDims nums last = dim :: dims)
    (hfuel : 2 * dims.length + 2 ≤ fuel) (pre rest : List ℕ) (record : List Level) :
    Outcome fuel (pre ++ rest) record (dim :: dims)
      (getnext fuel (pre ++ rest) pre.length record dim dims) (nextIndex last nums pre rest) := by
  induction nums generalizing dim dims fuel pre rest record with
  | nil =>
    obtain ⟨rfl, rfl⟩ := List.cons.inj hdims
    obtain ⟨fuel, rfl⟩ := Nat.exists_eq_succ_of_ne_zero (show fuel ≠ 0 by omega)
    exact getnext_last last fuel pre rest record
  | cons d nums ih =>
    obtain ⟨rfl, htail⟩ := List.cons.inj hdims
    obtain ⟨hd, hnums'⟩ := forall_mem_cons.mp hnums
    obtain ⟨dim', dims', hdims'⟩ : ∃ dim' dims', blockDims nums last = dim' :: dims' :=
      exists_cons_of_ne_nil (by simp [blockDims])
    obtain rfl : dim' :: dims' = dims := hdims'.symm.trans htail
    obtain ⟨fuel, rfl⟩ := Nat.exists_eq_succ_of_ne_zero (show fuel ≠ 0 by omega)
    rw [length_cons] at hfuel
    have hdrop : (pre ++ rest).drop pre.length = rest := drop_left
    have htake : (pre ++ rest).take pre.length = pre := take_left
    -- below a number that is chosen anew come the first elements of all dimensions
    have hdown : ∀ n record', getnext fuel (pre ++ [n]) (pre.length + 1) record' dim' dims' =
        descend (pre ++ [n]) (dim' :: dims') := by
      intro n record'
      have h := getnext_descend dim' dims' (show dims'.length < fuel by omega) (pre ++ [n]) record'
      rwa [length_append] at h
    cases d with
    | nil => simp [getnext, nextIndex, Outcome]
    | cons n d =>
      cases rest with
      | nil =>
        simp only [getnext, nextIndex, map_cons, Outcome, hdims', append_nil,
          drop_length]
        exact hdown n _
      | cons x xs =>
        have hscan := scan_ids hd x xs 0
        rw [map_cons] at hscan
        simp only [getnext, nextIndex, hdrop, htake, map_cons, isEmpty_cons, hscan,
          Nat.zero_add, hdims']
        by_cases hx : x ∈ n :: d
        · rw [if_pos hx, if_pos hx]
          have h := ih hnums' hdims' (show 2 * dims'.length + 2 ≤ fuel by omega) (pre ++ [x]) xs
            (⟨(n :: d).map Index.id, pre.length, (n :: d).idxOf x⟩ :: record)
          rw [append_assoc, singleton_append, length_append] at h
          cases hnext : nextIndex last nums (pre ++ [x]) xs with
          | done r =>
            rw [hnext] at h
            exact h
          | exhausted =>
            rw [hnext] at h
            obtain ⟨fuel', hfuel', hr⟩ := h
            rw [length_cons] at hfuel'
            -- the records lead back here, where the next position is tried
            rw [afterMiss, backtrack, getElem?_map] at hr
            dsimp only
            cases hget : (n :: d)[(n :: d).idxOf x + 1]? with
            | none =>
              rw [hget] at hr
              exact ⟨fuel', by simp only [length_cons]; omega, hr⟩
            | some m =>
              rw [hget] at hr
              simp only [Option.map_some, htake] at hr
              have henough : dims'.length + 1 < fuel' := by omega
              exact hr.trans (getnext_again hd (mem_of_getElem? hget) pre record dim'
                dims' henough)
        · rw [if_neg hx, if_neg hx]
          cases hfind : (n :: d).find? (x < ·) with
          | none => exact ⟨fuel, by simp, rfl⟩
          | some m => exact hdown m _

/-- **The iterator computes `nextIndex`.** -/
theorem groupIndexTableGetnext_eq (hnums : ∀ d ∈ nums, d.Pairwise (· ≤ ·)) (last : List Index)
    (oid : List ℕ) :
    groupIndexTableGetnext oid (blockDims nums last) =
      match nextIndex last nums [] oid with
      | .done r => r
      | .exhausted => .nothing oid := by
  obtain ⟨dim, dims, hdims⟩ : ∃ dim dims, blockDims nums last = dim :: dims :=
    exists_cons_of_ne_nil (by simp [blockDims])
  have h := getnext_outcome hnums last hdims (Nat.le_refl _) [] oid []
  rw [hdims, groupIndexTableGetnext]
  cases hnext : nextIndex last nums [] oid with
  | done r =>
    rw [hnext] at h
    exact h
  | exhausted =>
    rw [hnext] at h
    obtain ⟨fuel', -, hr⟩ := h
    exact hr

/-! ### Instances -/

/-- An instance of some dimensions: the numbers of one index out of every dimension. -/
def IsInstance : List (List Index) → List ℕ → Prop
  | [], s => s = []
  | d :: dims, s => ∃ e ∈ d, ∃ rest, s = e.ids ++ rest ∧ IsInstance dims rest

theorem descend_instance {dims : List (List Index)} (h : descend pre dims = .found oid) :
    ∃ s, oid = pre ++ s ∧ IsInstance dims s := by
  induction dims generalizing pre with
  | nil =>
    rw [descend, IndexNext.found.injEq] at h
    exact ⟨[], by simp [h], rfl⟩
  | cons d dims ih =>
    cases d with
    | nil => cases h
    | cons e es =>
      rw [descend] at h
      obtain ⟨s, rfl, hs⟩ := ih h
      exact ⟨e.ids ++ s, by simp, e, by simp, s, rfl, hs⟩

/-- The element where the loop over a dimension ends is one of the dimension. -/
theorem mem_of_scan_less {last : Bool} {pos k : ℕ} {d : List Index} {e : Index}
    (h : scan last oid pos d = .less k e) : e ∈ d ∧ ∃ cmp < 0, e.compare oid = some cmp := by
  induction d generalizing pos with
  | nil => cases h
  | cons a d ih =>
    rw [scan] at h
    cases hcmp : a.compare oid with
    | none => simp [hcmp] at h
    | some cmp =>
      by_cases heq : cmp = 0 ∧ last = false
      · simp [hcmp, heq] at h
      · by_cases hneg : cmp < 0
        · simp only [hcmp, heq, hneg, if_true, if_false, Scan.less.injEq] at h
          obtain ⟨-, rfl⟩ := h
          exact ⟨mem_cons_self, cmp, hneg, hcmp⟩
        · simp only [hcmp, heq, hneg, if_false] at h
          obtain ⟨hmem, hless⟩ := ih h
          exact ⟨mem_cons_of_mem a hmem, hless⟩

variable {last : List Index}

/-- What is found in the last dimension is one of its elements, and the first one or greater than
the request. -/
theorem nextLast_found {rest : List ℕ} (h : nextLast last pre rest = .done (.found oid)) :
    ∃ e ∈ last, oid = pre ++ e.ids ∧ (rest ≠ [] → ∃ cmp < 0, e.compare rest = some cmp) := by
  cases last with
  | nil => simp [nextLast] at h
  | cons e es =>
    cases rest with
    | nil =>
      simp only [nextLast, Sought.done.injEq, IndexNext.found.injEq] at h
      exact ⟨e, by simp, h.symm, by simp⟩
    | cons x xs =>
      rw [nextLast] at h
      cases hscan : scan true (x :: xs) 0 (e :: es) with
      | less pos n =>
        simp only [hscan, Sought.done.injEq, IndexNext.found.injEq] at h
        obtain ⟨hmem, hless⟩ := mem_of_scan_less hscan
        exact ⟨n, hmem, h.symm, fun _ => hless⟩
      | raised | missed | equal pos n => simp [hscan] at h

/-- The search goes through a dimension with a single number. -/
theorem nextIndex_singleton (last : List Index) (n : ℕ) (nums : List (List ℕ))
    (pre xs : List ℕ) :
    nextIndex last ([n] :: nums) pre (n :: xs) = nextIndex last nums (pre ++ [n]) xs := by
  rw [nextIndex, if_pos mem_cons_self]
  cases nextIndex last nums (pre ++ [n]) xs <;> simp

/-- What is found in the dimension `d` and those behind it, for a request that goes on with `x`: the
element is kept, the one at the next position is taken, or the next greater one. -/
theorem nextIndex_found_cons (h : nextIndex last (d :: nums) pre (x :: xs) = .done (.found oid)) :
    (x ∈ d ∧ nextIndex last nums (pre ++ [x]) xs = .done (.found oid)) ∨
      ∃ n, descend (pre ++ [n]) (blockDims nums last) = .found oid ∧
        ((x ∈ d ∧ nextIndex last nums (pre ++ [x]) xs = .exhausted ∧
            d[d.idxOf x + 1]? = some n) ∨
          (x ∉ d ∧ n ∈ d ∧ x < n)) := by
  cases d with
  | nil => simp [nextIndex] at h
  | cons m d =>
    rw [nextIndex] at h
    by_cases hx : x ∈ m :: d
    · rw [if_pos hx] at h
      cases hnext : nextIndex last nums (pre ++ [x]) xs with
      | done r =>
        simp only [hnext] at h
        exact .inl ⟨hx, h⟩
      | exhausted =>
        simp only [hnext] at h
        cases hget : (m :: d)[(m :: d).idxOf x + 1]? with
        | none => simp [hget] at h
        | some n =>
          simp only [hget, Sought.done.injEq] at h
          exact .inr ⟨n, h, .inl ⟨hx, rfl, rfl⟩⟩
    · rw [if_neg hx] at h
      cases hfind : (m :: d).find? (x < ·) with
      | none => simp [hfind] at h
      | some n =>
        simp only [hfind, Sought.done.injEq] at h
        exact .inr ⟨n, h, .inr ⟨hx, mem_of_find?_eq_some hfind,
          by simpa using find?_some hfind⟩⟩

/-- **What the iterator finds** is an instance. -/
theorem nextIndex_instance {rest : List ℕ} (h : nextIndex last nums pre rest = .done (.found oid)) :
    ∃ s, oid = pre ++ s ∧ IsInstance (blockDims nums last) s := by
  induction nums generalizing pre rest with
  | nil =>
    obtain ⟨e, he, rfl, -⟩ := nextLast_found h
    exact ⟨e.ids, rfl, e, he, [], by simp, rfl⟩
  | cons d nums ih =>
    have hcons : ∀ n ∈ d, (∃ s, oid = pre ++ [n] ++ s ∧ IsInstance (blockDims nums last) s) →
        ∃ s, oid = pre ++ s ∧ IsInstance (blockDims (d :: nums) last) s := by
      rintro n hn ⟨s, rfl, hs⟩
      exact ⟨n :: s, by simp, .id n, mem_map_of_mem hn, s, rfl, hs⟩
    cases rest with
    | nil =>
      cases d with
      | nil => simp [nextIndex] at h
      | cons n d =>
        simp only [nextIndex, Sought.done.injEq] at h
        exact hcons n mem_cons_self (descend_instance h)
    | cons x xs =>
      obtain ⟨hx, hnext⟩ | ⟨n, hdown, ⟨-, -, hget⟩ | ⟨-, hn, -⟩⟩ := nextIndex_found_cons h
      · exact hcons x hx (ih hnext)
      · exact hcons n (mem_of_getElem? hget) (descend_instance hdown)
      · exact hcons n hn (descend_instance hdown)

/-- A number and the one at its next position, in a list that is sorted or has no repetitions. -/
theorem rel_of_getElem?_idxOf {R : ℕ → ℕ → Prop} (hd : d.Pairwise R)
    (hget : d[d.idxOf x + 1]? = some n) : R x n := by
  obtain ⟨hlt, rfl⟩ := List.getElem?_eq_some_iff.mp hget
  have hx : d.idxOf x < d.length := Nat.lt_of_succ_lt hlt
  have h := pairwise_iff_getElem.mp hd _ _ hx hlt (Nat.lt_succ_self _)
  rwa [getElem_idxOf] at h

/-- A number of a sorted list comes again at the next position or not at all. -/
theorem getElem?_idxOf_succ_iff (hd : d.Pairwise (· ≤ ·)) {a : ℕ} (ha : a ∈ d) :
    d[d.idxOf a + 1]? = some a ↔ 2 ≤ d.count a := by
  induction d with
  | nil => cases ha
  | cons m d ih =>
    obtain ⟨hm, hd'⟩ := pairwise_cons.mp hd
    by_cases heq : m = a
    · subst heq
      rw [idxOf_cons_self, count_cons_self, Nat.succ_le_succ_iff, Nat.one_le_iff_ne_zero,
        ← Nat.pos_iff_ne_zero, count_pos_iff, getElem?_cons_succ]
      constructor
      · exact mem_of_getElem?
      · intro hmem
        cases d with
        | nil => cases hmem
        | cons n d =>
          have hle : n ≤ m := by
            rcases mem_cons.mp hmem with rfl | hmem
            · exact Nat.le_refl m
            · exact (pairwise_cons.mp hd').1 m hmem
          simpa using Nat.le_antisymm hle (hm n mem_cons_self)
    · rw [idxOf_cons_ne d heq, count_cons_of_ne heq, getElem?_cons_succ]
      exact ih hd' ((mem_cons.mp ha).resolve_left (Ne.symm heq))

/-- What is found in the dimension `d` and those behind it does not lie before the request. -/
theorem nextIndex_le (hd : d.Pairwise (· ≤ ·))
    (h : nextIndex last (d :: nums) pre (x :: xs) = .done (.found oid)) :
    ∃ n s, oid = pre ++ n :: s ∧ x ≤ n := by
  obtain ⟨-, hnext⟩ | ⟨n, hdown, hn⟩ := nextIndex_found_cons h
  · obtain ⟨s, rfl, -⟩ := nextIndex_instance hnext
    exact ⟨x, s, by simp, Nat.le_refl x⟩
  · obtain ⟨s, rfl, -⟩ := descend_instance hdown
    refine ⟨n, s, by simp, ?_⟩
    rcases hn with ⟨-, -, hget⟩ | ⟨-, -, hlt⟩
    · exact rel_of_getElem?_idxOf hd hget
    · exact Nat.le_of_lt hlt

/-- In a dimension without repetitions, an element is kept exactly when something is found behind
it. -/
theorem nextIndex_kept_iff (hd : d.Nodup) (hx : x ∈ d) {s : List ℕ} :
    nextIndex last (d :: nums) pre (x :: xs) = .done (.found (pre ++ x :: s)) ↔
      nextIndex last nums (pre ++ [x]) xs = .done (.found (pre ++ x :: s)) := by
  constructor
  · intro h
    obtain ⟨-, hnext⟩ | ⟨n, hdown, hn⟩ := nextIndex_found_cons h
    · exact hnext
    · obtain ⟨s', hs', -⟩ := descend_instance hdown
      obtain ⟨rfl, -⟩ : x = n ∧ s = s' := by simpa using hs'
      rcases hn with ⟨-, -, hget⟩ | ⟨hnot, -⟩
      · exact absurd rfl (rel_of_getElem?_idxOf hd hget)
      · exact absurd hx hnot
  · intro h
    cases d with
    | nil => cases hx
    | cons m d => rw [nextIndex, if_pos hx, h]

/-! ### Instances that are found again -/

/-- Each of the numbers is all that its dimension has. -/
def Constant : List (List ℕ) → List ℕ → Prop
  | [], [] => True
  | d :: dims, a :: idx => (d ≠ [] ∧ ∀ n ∈ d, n = a) ∧ Constant dims idx
  | _, _ => False

/-- The iterator **stalls** at an instance: one of its numbers is in a dimension twice, with nothing
else to choose behind it. -/
def Stalls : List (List ℕ) → List ℕ → Prop
  | d :: d' :: dims, a :: idx =>
    (a ∈ d ∧ Stalls (d' :: dims) idx) ∨ (2 ≤ d.count a ∧ Constant (d' :: dims) idx)
  | _, _ => False

theorem descend_constant {dims : List (List ℕ)} (h : Constant dims idx) (pre : List ℕ) :
    descend pre (dims.map (List.map Index.id)) = .found (pre ++ idx) := by
  induction dims generalizing idx pre with
  | nil =>
    cases idx with
    | nil => simp [descend]
    | cons a idx => cases h
  | cons d dims ih =>
    cases idx with
    | nil => cases h
    | cons a idx =>
      obtain ⟨⟨hne, hall⟩, hrest⟩ := h
      cases d with
      | nil => exact absurd rfl hne
      | cons n d =>
        obtain rfl : n = a := hall n mem_cons_self
        simp only [map_cons, descend, Index.ids, ih hrest, append_assoc,
          singleton_append]

theorem blockDims_ids (nums : List (List ℕ)) (l : List ℕ) :
    blockDims nums (l.map .id) = (nums ++ [l]).map (List.map Index.id) := by
  simp [blockDims]

/-- The loop over the last dimension goes past numbers that are not greater. -/
theorem scan_missed_iff (a : ℕ) (y : List ℕ) (pos : ℕ) (l : List ℕ) :
    scan true (a :: y) pos (l.map .id) = .missed ↔ ∀ n ∈ l, n ≤ a := by
  induction l generalizing pos with
  | nil => simp [scan]
  | cons n l ih =>
    rw [map_cons, scan]
    simp only [Index.compare]
    by_cases hlt : a < n
    · have hneg : (a : ℤ) - n < 0 := by omega
      have hnle : ¬ n ≤ a := Nat.not_le.mpr hlt
      simp [hneg, hnle]
    · have hneg : ¬ (a : ℤ) - n < 0 := by omega
      have hle : n ≤ a := Nat.not_lt.mp hlt
      simp [hneg, hle, ih]

theorem nextLast_exhausted_iff (l pre : List ℕ) (a : ℕ) (y : List ℕ) :
    nextLast (l.map .id) pre (a :: y) = .exhausted ↔ l ≠ [] ∧ ∀ n ∈ l, n ≤ a := by
  cases l with
  | nil => simp [nextLast]
  | cons m l =>
    rw [← scan_missed_iff a y 0, map_cons, nextLast]
    cases scan true (a :: y) 0 (Index.id m :: l.map .id) <;> simp

theorem nextLast_not_found (last : List Index) (pre idx : List ℕ) (hy : y ≠ []) :
    nextLast last pre (idx ++ y) ≠ .done (.found (pre ++ idx)) := by
  intro h
  obtain ⟨e, -, hoid, hless⟩ := nextLast_found h
  obtain rfl : idx = e.ids := by simpa using hoid
  obtain ⟨cmp, hneg, hcmp⟩ := hless (by simp [hy])
  cases e with
  | id n =>
    simp only [Index.ids, singleton_append, Index.compare, Option.some.injEq] at hcmp
    omega
  | arr ns =>
    have hself : ∀ ns : List ℕ, compareIds (ns ++ y) ns = some (y.length : ℤ) := by
      intro ns
      induction ns with
      | nil => simp [compareIds]
      | cons n ns ih => simpa [compareIds] using ih
    simp only [Index.ids, Index.compare, hself, Option.some.injEq] at hcmp
    omega

/-- In dimensions with nothing to choose, the search ends behind the instance or at it again. -/
theorem nextIndex_constant (h : Constant (nums ++ [l]) idx) (pre : List ℕ) (y : List ℕ) :
    nextIndex (l.map .id) nums pre (idx ++ y) = .exhausted ∨
      nextIndex (l.map .id) nums pre (idx ++ y) = .done (.found (pre ++ idx)) := by
  induction nums generalizing idx pre with
  | nil =>
    cases idx with
    | nil => cases h
    | cons a idx =>
      obtain ⟨⟨hne, hall⟩, -⟩ := h
      exact .inl ((nextLast_exhausted_iff l pre a _).mpr ⟨hne, fun n hn => Nat.le_of_eq (hall n hn)⟩)
  | cons d nums ih =>
    cases idx with
    | nil => cases h
    | cons a idx =>
      obtain ⟨⟨hne, hall⟩, hrest⟩ := h
      cases d with
      | nil => exact absurd rfl hne
      | cons m d =>
        have ha : a ∈ m :: d := by simp [hall m mem_cons_self]
        rw [cons_append, nextIndex, if_pos ha]
        rcases ih hrest (pre ++ [a]) with hnext | hnext
        · rw [hnext]
          cases hget : (m :: d)[(m :: d).idxOf a + 1]? with
          | none => exact .inl rfl
          | some n =>
            obtain rfl : n = a := hall n (mem_of_getElem? hget)
            have hdown : descend (pre ++ [n]) (blockDims nums (l.map .id)) =
                .found (pre ++ [n] ++ idx) :=
              blockDims_ids nums l ▸ descend_constant hrest (pre ++ [n])
            simp [hdown]
        · simp [hnext]

/-- When the search ends behind the first instance, then there is nothing to choose. -/
theorem constant_of_exhausted (hsort : ∀ d ∈ nums ++ [l], d.Pairwise (· ≤ ·)) {pre' : List ℕ}
    (hfirst : descend pre' (blockDims nums (l.map .id)) = .found (pre' ++ idx))
    (h : nextIndex (l.map .id) nums pre (idx ++ y) = .exhausted) : Constant (nums ++ [l]) idx := by
  induction nums generalizing pre pre' idx with
  | nil =>
    cases l with
    | nil => cases hfirst
    | cons a l =>
      obtain rfl : idx = [a] := by
        simpa [blockDims, descend, Index.ids, eq_comm] using hfirst
      obtain ⟨hne, hle⟩ := (nextLast_exhausted_iff (a :: l) pre a y).mp h
      refine ⟨⟨hne, fun n hn => le_antisymm (hle n hn) ?_⟩, trivial⟩
      rcases mem_cons.mp hn with rfl | hn
      · exact Nat.le_refl n
      · exact (pairwise_cons.mp (hsort (a :: l) (by simp))).1 n hn
  | cons d nums ih =>
    cases d with
    | nil => cases hfirst
    | cons a d =>
      rw [blockDims, map_cons, map_cons, cons_append, descend, ← blockDims]
        at hfirst
      obtain ⟨s, hs, -⟩ := descend_instance hfirst
      obtain rfl : idx = a :: s := by simpa [Index.ids] using hs
      have hfirst' : descend (pre' ++ [a]) (blockDims nums (l.map .id)) =
          .found (pre' ++ [a] ++ s) := by simpa [Index.ids] using hfirst
      rw [cons_append, nextIndex, if_pos mem_cons_self] at h
      cases hnext : nextIndex (l.map .id) nums (pre ++ [a]) (s ++ y) with
      | done r => simp [hnext] at h
      | exhausted =>
        have hrest := ih (fun d' hd' => hsort d' (mem_cons_of_mem _ hd')) hfirst' hnext
        cases d with
        | nil => exact ⟨⟨by simp, by simp⟩, hrest⟩
        | cons m d => simp [hnext] at h

/-- **When the iterator stays where it is**: it finds an instance again that the request goes
beyond. -/
theorem nextIndex_stalls_iff (hsort : ∀ d ∈ nums ++ [l], d.Pairwise (· ≤ ·)) (pre idx : List ℕ)
    (hy : y ≠ []) :
    nextIndex (l.map .id) nums pre (idx ++ y) = .done (.found (pre ++ idx)) ↔
      Stalls (nums ++ [l]) idx := by
  induction nums generalizing pre idx with
  | nil => exact iff_of_false (nextLast_not_found _ _ _ hy) (by simp [Stalls])
  | cons d nums ih =>
    have hd : d.Pairwise (· ≤ ·) := hsort d mem_cons_self
    have ih' := ih fun d' hd' => hsort d' (mem_cons_of_mem d hd')
    obtain ⟨d', dims, hdims⟩ : ∃ d' dims, nums ++ [l] = d' :: dims :=
      exists_cons_of_ne_nil (by simp)
    cases idx with
    | nil =>
      refine iff_of_false (fun h => ?_) (by simp [Stalls])
      obtain ⟨s, hs, e, he, rest, rfl, -⟩ := nextIndex_instance h
      obtain ⟨n, -, rfl⟩ := mem_map.mp he
      simp [Index.ids] at hs
    | cons a idx =>
      have hpre : pre ++ [a] ++ idx = pre ++ a :: idx := by simp
      have ih₁ := ih' (pre ++ [a]) idx
      rw [hpre, hdims] at ih₁
      rw [cons_append, cons_append, hdims, Stalls, ← ih₁, ← hdims]
      constructor
      · intro h
        -- it is found in a deeper dimension, or again at the next position of this one
        obtain ⟨ha, hnext⟩ | ⟨n, hdown, hn⟩ := nextIndex_found_cons h
        · exact .inl ⟨ha, hnext⟩
        · obtain ⟨s, hs, -⟩ := descend_instance hdown
          obtain ⟨rfl, rfl⟩ : a = n ∧ idx = s := by simpa using hs
          rcases hn with ⟨ha, hnext, hget⟩ | ⟨-, -, hlt⟩
          · rw [← hpre] at hdown
            exact .inr ⟨(getElem?_idxOf_succ_iff hd ha).mp hget, constant_of_exhausted
              (fun d' hd' => hsort d' (mem_cons_of_mem d hd')) hdown hnext⟩
          · exact absurd hlt (lt_irrefl _)
      · rintro (⟨ha, hnext⟩ | ⟨hcount, hconst⟩)
        · cases d with
          | nil => cases ha
          | cons m d => rw [nextIndex, if_pos ha, hnext]
        -- the number comes twice, and below it there is nothing but the instance
        · have ha : a ∈ d := count_pos_iff.mp (Nat.lt_of_succ_lt hcount)
          have hget := (getElem?_idxOf_succ_iff hd ha).mpr hcount
          have hdown : descend (pre ++ [a]) (blockDims nums (l.map .id)) =
              .found (pre ++ a :: idx) := by
            rw [blockDims_ids, descend_constant hconst, hpre]
          cases d with
          | nil => cases ha
          | cons m d =>
            rw [nextIndex, if_pos ha]
            rcases nextIndex_constant hconst (pre ++ [a]) y with hnext | hnext
            · simp only [hnext, hget, hdown]
            · rw [hnext, hpre]

end SmithSnmp
