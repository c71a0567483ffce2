import SmithSnmp.LuaNext
import SmithSnmp.LuaOrder

/-!
# The Walk of GETNEXT through a Lua Group

The GETNEXT handler of a group goes from cell to cell until it comes to one with a value. Behind a
cell without one it goes on in the next column of the table, at the index of the cell with zero for
its first number. So it passes over the other rows of the column, and over those of the next column
that come before that index.

The loop is told here without fuel, as a relation with an outcome for every run, and the cells that
it visits are told by the order of the generated instances alone: each one is the least instance
behind the OID that the search starts from, or the instance that the iterator turns to.

## Main results

* `luaGetnext_run`: the loop comes to its end, and the handler returns its outcome.
* `nextInBlocks_nextCell`: the cell that a search comes to.
* `luaGetnext_progress_iff`: when GETNEXT returns something behind the request.
* `luaGetnext_skips_nothing_iff`: when GETNEXT passes over nothing that has a value.
-/

namespace SmithSnmp

open List Lib Set
open Option hiding map_map

variable {σ : Type}

variable {objs : LuaObjects} {b : Block} {nums : List (List ℕ)} {last : List Index}
  {x s oid c c' : List ℕ} {tab blocks : List Block} {g : LuaGroup σ}

/-! ### Blocks -/

/-- `oid_cmp` on arrays is the lexicographic order. -/
theorem idsLt_iff (a b : List ℕ) : idsLt a b = true ↔ a < b := by
  induction a generalizing b with
  | nil => cases b <;> simp [idsLt]
  | cons x a ih =>
    cases b with
    | nil => simp [idsLt]
    | cons y b =>
      rw [idsLt, cons_lt_cons_iff]
      by_cases hxy : x = y
      · simp [hxy, ih]
      · simp [hxy]

theorem pairwise_ids {ns : List ℕ} (h : ns.Pairwise (· ≤ ·)) :
    ((ns.map Index.id).map Index.ids).Pairwise (· ≤ ·) := by
  rw [map_map, pairwise_map]
  refine h.imp fun {a b} hab => ?_
  rcases hab.lt_or_eq with hlt | rfl
  · exact (cons_lt_cons_iff.mpr (.inl hlt)).le
  · exact le_rfl

theorem pairwise_arrs (arrs : List (List ℕ)) :
    (((arrs.insertionSort fun a b => idsLt b a = false).map Index.arr).map Index.ids).Pairwise
      (· ≤ ·) := by
  have hle : ∀ a b : List ℕ, idsLt b a = false ↔ a ≤ b := by
    intro a b
    rw [← not_lt, ← idsLt_iff, Bool.not_eq_true]
  have htotal : Std.Total fun a b : List ℕ => idsLt b a = false :=
    ⟨fun a b => by simpa only [hle] using le_total a b⟩
  have htrans : IsTrans (List ℕ) fun a b => idsLt b a = false :=
    ⟨fun a b c => by simpa only [hle] using le_trans⟩
  rw [map_map, pairwise_map]
  exact (pairwise_insertionSort (fun a b => idsLt b a = false) arrs).imp
    fun h => (hle _ _).mp h

theorem indexDims_sorted {ix : Indexes} {dims : List (List Index)} (h : indexDims ix = some dims) :
    ∀ d ∈ dims, (d.map Index.ids).Pairwise (· ≤ ·) := by
  have hnums : ∀ ns : List ℕ,
      (((ns.insertionSort (· ≤ ·)).map Index.id).map Index.ids).Pairwise (· ≤ ·) :=
    fun ns => pairwise_ids (pairwise_insertionSort _ _)
  cases ix with
  | cascade ds =>
    rw [indexDims, some.injEq] at h
    subst h
    intro d hd
    obtain ⟨ns, -, rfl⟩ := mem_map.mp hd
    exact hnums ns
  | keys ks =>
    rw [indexDims] at h
    split at h
    · obtain rfl := some.inj h
      simpa using hnums _
    · split at h
      · obtain rfl := some.inj h
        simpa using pairwise_arrs _
      · cases h

theorem BlockOf.sorted (h : BlockOf objs b) : ∀ d ∈ b, (d.map Index.ids).Pairwise (· ≤ ·) := by
  cases h with
  | scalars nos hsort hobj =>
    have := pairwise_ids (hsort.imp Nat.le_of_lt)
    simpa [scalarIndexes] using this
  | table tableNo entry b hobj hb =>
    obtain ⟨dims, hdims, rfl⟩ := tableIndexes_eq_some.mp hb
    have hcols := pairwise_ids entry.cols_sorted
    have hrows := indexDims_sorted hdims
    intro d hd
    simp only [mem_cons] at hd
    rcases hd with rfl | rfl | rfl | hd
    · simp
    · simp
    · exact hcols
    · exact hrows d hd

theorem blockDims_inj {nums' : List (List ℕ)} {last' : List Index}
    (h : blockDims nums last = blockDims nums' last') : nums = nums' ∧ last = last' := by
  have hid : Function.Injective Index.id := fun _ _ => Index.id.inj
  obtain ⟨hnums, hlast⟩ := append_inj' h rfl
  exact ⟨map_injective_iff.mpr (map_injective_iff.mpr hid) hnums, by simpa using hlast⟩

/-- The iterator turns in a block from the request `x` to the instance `s`. -/
def BlockTurns (b : Block) (x s : List ℕ) : Prop :=
  ∃ nums last, b = blockDims nums last ∧ Turns last nums x s

theorem blockTurns_blockDims : BlockTurns (blockDims nums last) x s ↔ Turns last nums x s := by
  constructor
  · rintro ⟨nums', last', heq, h⟩
    obtain ⟨rfl, rfl⟩ := blockDims_inj heq
    exact h
  · exact fun h => ⟨nums, last, rfl, h⟩

/-- A turn is only taken in the rows of a table. -/
theorem BlockOf.turns (h : BlockOf objs b) (hturn : BlockTurns b x s) :
    ∃ tableNo varNo xs s', tableNo ∈ heads b ∧ x = tableNo :: 1 :: varNo :: xs ∧
      s = tableNo :: 1 :: varNo :: s' := by
  cases h with
  | scalars nos hsort hobj =>
    have hdims : scalarIndexes nos = blockDims [nos] [.id 0] := rfl
    rw [hdims, blockTurns_blockDims] at hturn
    have hnodup : ∀ d ∈ [nos], d.Nodup :=
      fun d hd => mem_singleton.mp hd ▸ hsort.imp Nat.ne_of_lt
    exact absurd hturn (not_turns (by simp) hnodup x s)
  | table tableNo entry b hobj hb =>
    rw [(heads_tableIndexes hb).1]
    obtain ⟨dims, hdims, rfl⟩ := tableIndexes_eq_some.mp hb
    rcases indexDims_cases hdims with rfl | ⟨nums, last, rfl, -, -⟩
    · have heq : [.id tableNo] :: [.id 1] :: entry.cols.map .id :: [] =
          blockDims [[tableNo], [1]] (entry.cols.map .id) := rfl
      rw [heq, blockTurns_blockDims] at hturn
      exact absurd hturn (not_turns (by simp) (by simp) x s)
    · have heq : [.id tableNo] :: [.id 1] :: entry.cols.map .id :: blockDims nums last =
          blockDims ([tableNo] :: [1] :: entry.cols :: nums) last := rfl
      rw [heq, blockTurns_blockDims] at hturn
      obtain ⟨x₁, xs₁, s₁, rfl, rfl, hx₁, h₁⟩ := hturn.cons (by simp)
      obtain ⟨x₂, xs₂, s₂, rfl, rfl, hx₂, h₂⟩ := h₁.cons (by simp)
      obtain ⟨x₃, xs₃, s₃, rfl, rfl, -, -⟩ := h₂.cons entry.cols_nodup
      obtain rfl := mem_singleton.mp hx₁
      obtain rfl := mem_singleton.mp hx₂
      exact ⟨x₁, x₃, xs₃, s₃, by simp, rfl, rfl⟩

/-- The dimensions of a block as the iterator goes through them. -/
theorem BlockOf.exists_dims (h : BlockOf objs b) :
    ∃ nums last, b = blockDims (heads b :: nums) last ∧
      (∀ d ∈ heads b :: nums, d.Pairwise (· ≤ ·)) ∧ (last.map Index.ids).Pairwise (· ≤ ·) := by
  obtain ⟨nums, last, hb, hsort⟩ := h.eq_blockDims
  exact ⟨nums, last, hb, hsort, h.sorted last (by rw [hb]; simp [blockDims])⟩

/-- **What is found in a block**: the instance that the iterator turns to, and otherwise the least
one behind the request. -/
theorem BlockOf.found (h : BlockOf objs b) (hfound : groupIndexTableGetnext x b = .found oid) :
    BlockTurns b x oid ∨
      (∀ s, ¬ BlockTurns b x s) ∧ IsLeast (instances b ∩ Ioi x) oid := by
  obtain ⟨nums, last, hb, hnums, hlast⟩ := h.exists_dims
  rw [hb] at hfound ⊢
  simp only [blockTurns_blockDims]
  rw [groupIndexTableGetnext_eq hnums] at hfound
  have hspec := nextIndex_spec hlast hnums [] x
  cases hnext : nextIndex last (heads b :: nums) [] x with
  | exhausted => simp [hnext] at hfound
  | done r =>
    simp only [hnext] at hfound
    subst hfound
    rw [hnext] at hspec
    obtain ⟨s, hs, hleast | hturn⟩ := hspec
    · rw [nil_append] at hs
      subst hs
      refine .inr ⟨fun s hturn => ?_, hleast⟩
      have hsame := (hturn.found hlast hnums []).symm.trans hnext
      obtain rfl : s = oid := by simpa using hsame
      exact absurd hleast.1.2 (not_lt.mpr hturn.le)
    · rw [nil_append] at hs
      exact .inl (hs ▸ hturn)

/-- The OID that the iterator leaves behind when there is nothing. -/
theorem nextIndex_nothing (hlast : (last.map Index.ids).Pairwise (· ≤ ·)) {d : List ℕ}
    (hd : d.Pairwise (· ≤ ·)) (hnums : ∀ d ∈ nums, d.Pairwise (· ≤ ·)) {pre rest y : List ℕ}
    (h : nextIndex last (d :: nums) pre rest = .done (.nothing y)) :
    y = pre ++ rest ∨ ∃ n, n ∈ d ∧ pre ++ [n] <+: y ∧ ∀ m ms, rest = m :: ms → m ≤ n := by
  have hdown : ∀ n, descend (pre ++ [n]) (blockDims nums last) = .nothing y → pre ++ [n] <+: y := by
    intro n hn
    rcases descend_spec hnums hlast (pre ++ [n]) with ⟨s, hs, -⟩ | ⟨y', hy, hpre, -⟩
    · rw [hs] at hn
      cases hn
    · rw [hy, IndexNext.nothing.injEq] at hn
      exact hn ▸ hpre
  cases d with
  | nil =>
    simp only [nextIndex, Sought.done.injEq, IndexNext.nothing.injEq] at h
    exact .inl h.symm
  | cons m d =>
    refine .inr ?_
    cases rest with
    | nil =>
      rw [nextIndex, Sought.done.injEq] at h
      exact ⟨m, mem_cons_self, hdown m h, by simp⟩
    | cons x xs =>
      rw [nextIndex] at h
      by_cases hx : x ∈ m :: d
      · rw [if_pos hx] at h
        have hspec := nextIndex_spec hlast hnums (pre ++ [x]) xs
        cases hnext : nextIndex last nums (pre ++ [x]) xs with
        | done r =>
          rw [hnext] at h hspec
          obtain rfl : r = .nothing y := by simpa using h
          exact ⟨x, hx, hspec.1, by simp⟩
        | exhausted =>
          rw [hnext] at h
          cases hget : (m :: d)[(m :: d).idxOf x + 1]? with
          | none => simp [hget] at h
          | some n =>
            simp only [hget, Sought.done.injEq] at h
            refine ⟨n, mem_of_getElem? hget, hdown n h, ?_⟩
            rintro k ks heq
            obtain ⟨rfl, -⟩ := List.cons.inj heq
            exact rel_of_getElem?_idxOf hd hget
      · rw [if_neg hx] at h
        cases hfind : (m :: d).find? (x < ·) with
        | none => simp [hfind] at h
        | some n =>
          simp only [hfind, Sought.done.injEq] at h
          refine ⟨n, mem_of_find?_eq_some hfind, hdown n h, ?_⟩
          rintro k ks heq
          obtain ⟨rfl, -⟩ := List.cons.inj heq
          exact le_of_lt (by simpa using find?_some hfind)

/-- **When nothing is found in a block.** The OID is handed on as it is, or with an object number of
the block that is not smaller. -/
theorem BlockOf.nothing (h : BlockOf objs b) {y : List ℕ}
    (hnothing : groupIndexTableGetnext x b = .nothing y) :
    (∀ s, ¬ BlockTurns b x s) ∧ instances b ∩ Ioi x = ∅ ∧
      (y = x ∨ ∃ n ∈ heads b, (∃ ys, y = n :: ys) ∧ ∀ m ms, x = m :: ms → m ≤ n) := by
  obtain ⟨nums, last, hb, hnums, hlast⟩ := h.exists_dims
  have hgetnext := groupIndexTableGetnext_eq hnums last x
  rw [← hb, hnothing] at hgetnext
  have hspec := nextIndex_spec hlast hnums [] x
  have hturn : ∀ s, ¬ BlockTurns b x s := by
    intro s hs
    rw [hb, blockTurns_blockDims] at hs
    rw [hs.found hlast hnums []] at hgetnext
    cases hgetnext
  refine ⟨hturn, ?_⟩
  cases hnext : nextIndex last (heads b :: nums) [] x with
  | exhausted =>
    rw [hnext] at hspec hgetnext
    rw [IndexNext.nothing.injEq] at hgetnext
    exact ⟨hb ▸ hspec.1, .inl hgetnext⟩
  | done r =>
    rw [hnext] at hspec hgetnext
    subst hgetnext
    have hempty : instances b = ∅ := by
      rw [hb]
      exact hspec.2
    refine ⟨by rw [hempty, empty_inter], ?_⟩
    obtain ⟨hd, hnums'⟩ := forall_mem_cons.mp hnums
    rcases nextIndex_nothing hlast hd hnums' hnext with heq | ⟨n, hn, ⟨ys, rfl⟩, hle⟩
    · exact .inl heq
    · exact .inr ⟨n, hn, ⟨ys, rfl⟩, hle⟩

/-! ### The cells of a group -/

/-- The instances that the index blocks generate. -/
def generated (tab : List Block) : Set (List ℕ) := {s | ∃ b ∈ tab, IsInstance b s}

/-- The iterator turns in one of the blocks from the request `x` to the instance `s`. -/
def GroupTurns (tab : List Block) (x s : List ℕ) : Prop := ∃ b ∈ tab, BlockTurns b x s

/-- **The cell that a search comes to**: the instance that the iterator turns to, and otherwise the
least one behind the request. -/
def NextCell (tab : List Block) (x c : List ℕ) : Prop :=
  GroupTurns tab x c ∨ (∀ s, ¬ GroupTurns tab x s) ∧ IsLeast (generated tab ∩ Ioi x) c

/-- Blocks of a group, with ascending object numbers. -/
structure Ascending (objs : LuaObjects) (tab : List Block) : Prop where
  blockOf : ∀ b ∈ tab, BlockOf objs b
  ascending : tab.Pairwise fun b b' => ∀ n ∈ heads b, ∀ n' ∈ heads b', n < n'

theorem ascending_of_generate (h : mibGroupIndexesGenerate objs = some tab) :
    Ascending objs tab := by
  obtain ⟨hof, hasc, -⟩ := mibGroupIndexesGenerate_spec h
  exact ⟨hof, (pairwise_flatMap.mp hasc).2⟩

section Search

variable {objs : LuaObjects} {b : Block} {bs : List Block} {x y c : List ℕ}

theorem Ascending.tail (h : Ascending objs (b :: bs)) : Ascending objs bs :=
  ⟨fun b' hb' => h.blockOf b' (mem_cons_of_mem b hb'), (pairwise_cons.mp h.ascending).2⟩

theorem Ascending.lt (h : Ascending objs (b :: bs)) {b' : Block} (hb' : b' ∈ bs) {n n' : ℕ}
    (hn : n ∈ heads b) (hn' : n' ∈ heads b') : n < n' :=
  (pairwise_cons.mp h.ascending).1 b' hb' n hn n' hn'

/-- The request comes before all of the blocks. -/
def Before (bs : List Block) (x : List ℕ) : Prop :=
  ∀ b ∈ bs, ∀ n ∈ heads b, ∀ m ms, x = m :: ms → m < n

theorem Before.not_turns (h : Ascending objs bs) (hx : Before bs x) (s : List ℕ) :
    ¬ GroupTurns bs x s := by
  rintro ⟨b, hb, hturn⟩
  obtain ⟨t, v, xs, s', ht, rfl, -⟩ := (h.blockOf b hb).turns hturn
  exact lt_irrefl _ (hx b hb t ht _ _ rfl)

theorem Before.inter_eq (h : Ascending objs bs) (hx : Before bs x) :
    generated bs ∩ Ioi x = generated bs := by
  refine inter_eq_left.mpr ?_
  rintro s ⟨b, hb, hs⟩
  obtain ⟨no, rest, rfl, hno⟩ := (h.blockOf b hb).head_of_instance hs
  cases x with
  | nil => exact nil_lt_iff.mpr (by simp)
  | cons m ms => exact cons_lt_cons_iff.mpr (.inl (hx b hb no hno m ms rfl))

/-- **When a block has nothing for the request**, the search goes on in the other blocks, and the
OID that is handed on makes no difference for them. -/
theorem Ascending.of_nothing (h : Ascending objs (b :: bs))
    (hnothing : groupIndexTableGetnext x b = .nothing y) :
    (∀ s, GroupTurns (b :: bs) x s ↔ GroupTurns bs y s) ∧
      generated (b :: bs) ∩ Ioi x = generated bs ∩ Ioi y := by
  obtain ⟨hturn, hnone, hcase⟩ := (h.blockOf b mem_cons_self).nothing hnothing
  have hturns : ∀ s, GroupTurns (b :: bs) x s ↔ GroupTurns bs x s := by
    intro s
    simp [GroupTurns, hturn s]
  have hgen : generated (b :: bs) ∩ Ioi x = generated bs ∩ Ioi x := by
    ext s
    constructor
    · rintro ⟨⟨b', hb', hs⟩, hlt⟩
      rcases mem_cons.mp hb' with rfl | hb'
      · exact absurd (show s ∈ instances b' ∩ Ioi x from ⟨hs, hlt⟩) (by simp [hnone])
      · exact ⟨⟨b', hb', hs⟩, hlt⟩
    · rintro ⟨⟨b', hb', hs⟩, hlt⟩
      exact ⟨⟨b', mem_cons_of_mem b hb', hs⟩, hlt⟩
  rw [hgen]
  simp only [hturns]
  rcases hcase with rfl | ⟨n, hn, ⟨ys, rfl⟩, hle⟩
  · exact ⟨fun _ => Iff.rfl, rfl⟩
  · have hx : Before bs x := fun b' hb' n' hn' m ms heq =>
      (hle m ms heq).trans_lt (h.lt hb' hn hn')
    have hy : Before bs (n :: ys) := by
      rintro b' hb' n' hn' m ms heq
      obtain ⟨rfl, -⟩ := List.cons.inj heq
      exact h.lt hb' hn hn'
    exact ⟨fun s => iff_of_false (hx.not_turns h.tail s) (hy.not_turns h.tail s),
      (hx.inter_eq h.tail).trans (hy.inter_eq h.tail).symm⟩

/-- What is found in the first block is the next cell. -/
theorem Ascending.nextCell_of_found (h : Ascending objs (b :: bs))
    (hfound : groupIndexTableGetnext x b = .found c) : NextCell (b :: bs) x c := by
  have hof := h.blockOf b mem_cons_self
  rcases hof.found hfound with hturn | ⟨hturn, hleast⟩
  · exact .inl ⟨b, mem_cons_self, hturn⟩
  obtain ⟨no, rest, rfl, hno⟩ := hof.head_of_instance hleast.1.1
  refine .inr ⟨?_, ⟨⟨b, mem_cons_self, hleast.1.1⟩, hleast.1.2⟩, ?_⟩
  · rintro s ⟨b', hb', hturn'⟩
    rcases mem_cons.mp hb' with rfl | hb'
    · exact hturn s hturn'
    · -- a turn in a block behind starts from an object number of that block
      obtain ⟨t, v, xs, s', ht, rfl, -⟩ := (h.tail.blockOf b' hb').turns hturn'
      have hlt : no < t := h.lt hb' hno ht
      exact lt_asymm hleast.1.2 (cons_lt_cons_iff.mpr (.inl hlt))
  · rintro s ⟨⟨b', hb', hs⟩, hxs⟩
    rcases mem_cons.mp hb' with rfl | hb'
    · exact hleast.2 ⟨hs, hxs⟩
    · obtain ⟨no', rest', rfl, hno'⟩ := (h.tail.blockOf b' hb').head_of_instance hs
      exact (cons_lt_cons_iff.mpr (.inl (h.lt hb' hno hno'))).le

/-- **The search comes to the next cell.** The induction is over the blocks; the request is what the
blocks before have handed on. -/
theorem nextInBlocks_nextCell (h : Ascending objs tab)
    (hnext : nextInBlocks tab x = .found blocks c) :
    NextCell tab x c ∧ ∃ l b r, tab = l ++ b :: r ∧ blocks = b :: r ∧ IsInstance b c := by
  induction tab generalizing x with
  | nil => cases hnext
  | cons b bs ih =>
    rw [nextInBlocks] at hnext
    cases hb : groupIndexTableGetnext x b with
    | raised => simp [hb] at hnext
    | found oid =>
      simp only [hb, BlocksNext.found.injEq] at hnext
      obtain ⟨rfl, rfl⟩ := hnext
      exact ⟨h.nextCell_of_found hb, [], b, bs, rfl, rfl,
        (h.blockOf b mem_cons_self).instance_of_found hb⟩
    | nothing y =>
      simp only [hb] at hnext
      obtain ⟨hturns, hgen⟩ := h.of_nothing hb
      obtain ⟨hcell, l, b', r, rfl, hblocks, hinst⟩ := ih h.tail hnext
      refine ⟨?_, b :: l, b', r, rfl, hblocks, hinst⟩
      simpa only [NextCell, hturns, hgen] using hcell

/-- When the search finds nothing, then no instance is behind the request. -/
theorem nextInBlocks_nothing (h : Ascending objs tab) (hnext : nextInBlocks tab x = .nothing) :
    (∀ s, ¬ GroupTurns tab x s) ∧ generated tab ∩ Ioi x = ∅ := by
  induction tab generalizing x with
  | nil => exact ⟨by simp [GroupTurns], by simp [generated]⟩
  | cons b bs ih =>
    rw [nextInBlocks] at hnext
    cases hb : groupIndexTableGetnext x b with
    | raised | found oid => simp [hb] at hnext
    | nothing y =>
      simp only [hb] at hnext
      obtain ⟨hturns, hgen⟩ := h.of_nothing hb
      simp only [hturns, hgen]
      exact ih h.tail hnext

end Search

theorem Ascending.eq_of_heads (h : Ascending objs tab) {b' : Block} (hb : b ∈ tab) (hb' : b' ∈ tab)
    {n : ℕ} (hn : n ∈ heads b) (hn' : n ∈ heads b') : b = b' := by
  induction tab with
  | nil => cases hb
  | cons a tab ih =>
    rcases mem_cons.mp hb with rfl | hmem
    · rcases mem_cons.mp hb' with rfl | hmem'
      · rfl
      · exact absurd (h.lt hmem' hn hn') (lt_irrefl n)
    · rcases mem_cons.mp hb' with rfl | hmem'
      · exact absurd (h.lt hmem hn' hn) (lt_irrefl n)
      · exact ih h.tail hmem hmem'

theorem BlockOf.turns_unique (h : BlockOf objs b) {s' : List ℕ} (hs : BlockTurns b x s)
    (hs' : BlockTurns b x s') : s = s' := by
  obtain ⟨nums, last, hb, hnums, hlast⟩ := h.exists_dims
  rw [hb, blockTurns_blockDims] at hs hs'
  simpa using (hs.found hlast hnums []).symm.trans (hs'.found hlast hnums [])

theorem NextCell.unique (h : Ascending objs tab) (hc : NextCell tab x c) (hc' : NextCell tab x c') :
    c = c' := by
  rcases hc with ⟨b, hb, hturn⟩ | ⟨hnone, hleast⟩
  · rcases hc' with ⟨b', hb', hturn'⟩ | ⟨hnone, -⟩
    · obtain ⟨t, v, xs, s, ht, rfl, -⟩ := (h.blockOf b hb).turns hturn
      obtain ⟨t', v', xs', s', ht', heq, -⟩ := (h.blockOf b' hb').turns hturn'
      obtain ⟨rfl, -⟩ := List.cons.inj heq
      obtain rfl := h.eq_of_heads hb hb' ht ht'
      exact (h.blockOf b hb).turns_unique hturn hturn'
    · exact absurd ⟨b, hb, hturn⟩ (hnone c)
  · rcases hc' with hturn' | ⟨-, hleast'⟩
    · exact absurd hturn' (hnone c')
    · exact hleast.unique hleast'

/-- An instance behind the request is not before the next cell. -/
theorem NextCell.le_of_behind {o : List ℕ} (hc : NextCell tab x c) (ho : o ∈ generated tab)
    (hxo : x < o) : c ≤ o := by
  rcases hc with ⟨b, hb, nums, last, rfl, hturn⟩ | ⟨-, hleast⟩
  · exact hturn.le.trans hxo.le
  · exact hleast.2 ⟨ho, hxo⟩

/-! ### The loop without fuel -/

/-- How GETNEXT ends. -/
inductive GroupNext where
  | raised
  | nothing
  | value (oid : List ℕ) (val : LuaVal) (tag : UInt8) (errStat : Int32)

/-- What the handler returns. -/
def GroupNext.reply : GroupNext → Reply
  | .raised => .fail
  | .nothing => .ret 0 [] .nil asn1TagNoSuchObj
  | .value oid val tag errStat => .ret errStat (toOid oid) val tag

/-- A cell has a value: one that is not nil, of an accessible variable. -/
def LuaGroup.HasValue (g : LuaGroup σ) (st : σ) (c : List ℕ) : Prop :=
  ∃ t val e, nextTarget g.objs c = some t ∧ (g.getF t.path t.inst st).1 = some (val, e) ∧
    val ≠ .nil ∧ t.var.access ≠ .una

/-- The handler goes on behind a cell. -/
def LuaGroup.Valueless (g : LuaGroup σ) (st : σ) (c : List ℕ) : Prop :=
  ∃ t val e, nextTarget g.objs c = some t ∧ (g.getF t.path t.inst st).1 = some (val, e) ∧
    (t.var.tag = none ∨ val = .nil ∨ t.var.access = .una)

/-- What the handler makes of a cell: the end of the loop, unless it goes on behind the cell. -/
def readCell (g : LuaGroup σ) (c : List ℕ) (st : σ) : Option GroupNext :=
  match nextTarget g.objs c with
  | none => some .raised
  | some t =>
    match (g.getF t.path t.inst st).1 with
    | none => some .raised
    | some (val, errStat) =>
      match t.var.tag with
      | none => none
      | some tag =>
        if val = .nil ∨ t.var.access = .una then none
        else if returnValueCheck val tag then some (.value c val tag (errStat.getD 0))
        else some .raised

/-- The loop of GETNEXT, from the blocks and the OID that it has come to until its end. -/
inductive GetnextRun (g : LuaGroup σ) (st : σ) : List Block → List ℕ → GroupNext → Prop
  | raised {blocks : List Block} {x : List ℕ} (hnext : nextInBlocks blocks x = .raised) :
      GetnextRun g st blocks x .raised
  | nothing {blocks : List Block} {x : List ℕ} (hnext : nextInBlocks blocks x = .nothing) :
      GetnextRun g st blocks x .nothing
  | read {blocks blocks' : List Block} {x c : List ℕ} {r : GroupNext}
      (hnext : nextInBlocks blocks x = .found blocks' c) (hread : readCell g c st = some r) :
      GetnextRun g st blocks x r
  | skip {blocks blocks' : List Block} {x c : List ℕ} {r : GroupNext}
      (hnext : nextInBlocks blocks x = .found blocks' c) (hread : readCell g c st = none)
      (hrun : GetnextRun g st blocks' (skipColumn c) r) : GetnextRun g st blocks x r

/-- GETNEXT of a group as a whole. -/
def LuaGroup.Getnext (g : LuaGroup σ) (st : σ) (x : List ℕ) (r : GroupNext) : Prop :=
  match mibGroupIndexesGenerate g.objs with
  | none => r = .raised
  | some tab => GetnextRun g st tab x r

section Cells

variable {g : LuaGroup σ} {st : σ} {c : List ℕ}

theorem readCell_eq_none_iff : readCell g c st = none ↔ g.Valueless st c := by
  rw [readCell, LuaGroup.Valueless]
  cases ht : nextTarget g.objs c with
  | none => simp
  | some t =>
    cases hget : (g.getF t.path t.inst st).1 with
    | none => simp [hget]
    | some p =>
      obtain ⟨val, e⟩ := p
      cases htag : t.var.tag with
      | none => simp [hget, htag]
      | some tag =>
        by_cases hskip : val = .nil ∨ t.var.access = .una
        · simp [hget, htag, hskip]
        · by_cases hcheck : returnValueCheck val tag = true <;>
            simp [hget, htag, hskip, hcheck]

theorem readCell_value_iff {val : LuaVal} {tag : UInt8} {errStat : Int32} :
    readCell g c st = some (.value oid val tag errStat) ↔
      c = oid ∧ ∃ t, nextTarget g.objs c = some t ∧ g.Reads t st val tag errStat := by
  rw [readCell]
  cases ht : nextTarget g.objs c with
  | none => simp
  | some t =>
    simp only [some.injEq, exists_eq_left']
    constructor
    · intro h
      cases hget : (g.getF t.path t.inst st).1 with
      | none => simp [hget] at h
      | some p =>
        obtain ⟨v, e⟩ := p
        cases htag : t.var.tag with
        | none => simp [hget, htag] at h
        | some tag' =>
          simp only [hget, htag] at h
          by_cases hskip : v = .nil ∨ t.var.access = .una
          · simp [hskip] at h
          · rw [if_neg hskip] at h
            by_cases hcheck : returnValueCheck v tag' = true
            · rw [if_pos hcheck, some.injEq, GroupNext.value.injEq] at h
              obtain ⟨rfl, rfl, rfl, herr⟩ := h
              obtain ⟨hnil, haccess⟩ := not_or.mp hskip
              exact ⟨rfl, ⟨e, hget, herr⟩, hnil, htag, haccess, hcheck⟩
            · simp [hcheck] at h
    · rintro ⟨rfl, ⟨e, hget, rfl⟩, hnil, htag, haccess, hcheck⟩
      simp [hget, htag, hnil, haccess, hcheck]

/-- The handler does not take a cell for the end of the group. -/
theorem readCell_ne_nothing : readCell g c st ≠ some .nothing := by
  rw [readCell]
  repeat' split
  all_goals simp

theorem getnextLoop_succ (hpure : g.Pure) (fuel : ℕ) (blocks : List Block) (x : List ℕ) (st : σ) :
    getnextLoop g (fuel + 1) blocks x st =
      match nextInBlocks blocks x with
      | .raised => (GroupNext.raised.reply, st)
      | .nothing => (GroupNext.nothing.reply, st)
      | .found blocks' c =>
        match readCell g c st with
        | some r => (r.reply, st)
        | none => getnextLoop g fuel blocks' (skipColumn c) st := by
  rw [getnextLoop]
  cases hnext : nextInBlocks blocks x with
  | raised => rfl
  | nothing => rfl
  | found blocks' c =>
    simp only [readCell]
    cases ht : nextTarget g.objs c with
    | none => rfl
    | some t =>
      obtain ⟨_ | ⟨val, e⟩, hget⟩ := hpure.getF_eq t.path t.inst st
      · simp [hget, GroupNext.reply]
      · cases htag : t.var.tag with
        | none => simp [hget, htag]
        | some tag =>
          by_cases hskip : val = .nil ∨ t.var.access = .una
          · simp [hget, htag, hskip]
          · by_cases hcheck : returnValueCheck val tag = true <;>
              simp [hget, htag, hskip, valueReply, hcheck, GroupNext.reply]

end Cells

theorem GetnextRun.unique {st : σ} {r r' : GroupNext} (h : GetnextRun g st blocks x r)
    (h' : GetnextRun g st blocks x r') : r = r' := by
  induction h with
  | raised hnext | nothing hnext | read hnext hread => cases h' <;> simp_all
  | skip hnext hread hrun ih =>
    cases h' with
    | raised hnext' | nothing hnext' => simp [hnext] at hnext'
    | read hnext' hread' =>
      obtain ⟨-, rfl⟩ := BlocksNext.found.inj (hnext.symm.trans hnext')
      rw [hread] at hread'
      cases hread'
    | skip hnext' hread' hrun' =>
      obtain ⟨rfl, rfl⟩ := BlocksNext.found.inj (hnext.symm.trans hnext')
      exact ih hrun'

/-! ### The loop comes to its end -/

/-- The columns of a block, and the scalars: as many as it has indexes at most. -/
theorem BlockOf.exists_columns (h : BlockOf objs b) :
    ∃ ks : List (List ℕ), ks.length ≤ blockSize b ∧ ∀ s, IsInstance b s → s.take 3 ∈ ks := by
  cases h with
  | scalars nos hsort hobj =>
    refine ⟨nos.map fun n => [n, 0], ?_, fun s hs => ?_⟩
    · simp only [blockSize, scalarIndexes, length_map, map_cons, sum_cons]
      omega
    · obtain ⟨n, hn, rfl⟩ := isInstance_scalarIndexes hs
      exact mem_map.mpr ⟨n, hn, rfl⟩
  | table tableNo entry b hobj hb =>
    obtain ⟨dims, -, rfl⟩ := tableIndexes_eq_some.mp hb
    refine ⟨entry.cols.map fun n => [tableNo, 1, n], ?_, fun s hs => ?_⟩
    · simp only [blockSize, length_map, map_cons, sum_cons]
      omega
    · obtain ⟨n, inst, hn, rfl, -⟩ := isInstance_table hs
      exact mem_map.mpr ⟨n, LuaEntry.mem_cols.mpr hn, rfl⟩

theorem Ascending.exists_columns (h : Ascending objs tab) :
    ∃ ks : List (List ℕ), ks.length ≤ (tab.map blockSize).sum ∧
      ∀ s ∈ generated tab, s.take 3 ∈ ks := by
  induction tab with
  | nil => exact ⟨[], by simp, by simp [generated]⟩
  | cons b bs ih =>
    obtain ⟨ks, hlen, hks⟩ := (h.blockOf b mem_cons_self).exists_columns
    obtain ⟨ks', hlen', hks'⟩ := ih h.tail
    refine ⟨ks ++ ks', ?_, ?_⟩
    · simp only [length_append, map_cons, sum_cons]
      omega
    · rintro s ⟨b', hb', hs⟩
      rcases mem_cons.mp hb' with rfl | hb'
      · exact mem_append_left ks' (hks s hs)
      · exact mem_append_right ks (hks' s ⟨b', hb', hs⟩)

theorem NextCell.mem_generated (h : Ascending objs tab) (hc : NextCell tab x c) :
    c ∈ generated tab := by
  rcases hc with ⟨b, hb, hturn⟩ | ⟨-, hleast⟩
  · obtain ⟨nums, last, hdims, hnums, hlast⟩ := (h.blockOf b hb).exists_dims
    rw [hdims, blockTurns_blockDims] at hturn
    obtain ⟨s, hs, hinst⟩ := nextIndex_instance (hturn.found hlast hnums [])
    obtain rfl : c = s := by simpa using hs
    exact ⟨b, hb, by rw [hdims]; exact hinst⟩
  · exact hleast.1.1

/-- **The columns ascend**: the next cell behind a cell is in a column behind that of the cell. -/
theorem NextCell.column_lt (h : Ascending objs tab) {t : LuaTarget}
    (ht : nextTarget objs c = some t) (hc : NextCell tab (skipColumn c) c') :
    c.take 3 < c'.take 3 := by
  rcases c with _ | ⟨n₁, _ | ⟨n₂, _ | ⟨n₃, _ | ⟨i, inst⟩⟩⟩⟩
  · cases ht
  · cases ht
  · -- a scalar
    rcases hc with ⟨b, hb, hturn⟩ | ⟨-, hleast⟩
    · obtain ⟨t', v, xs, s, -, heq, -⟩ := (h.blockOf b hb).turns hturn
      simp [skipColumn] at heq
    · have hlt : [n₁, n₂] < c' := hleast.1.2
      exact lt_take_of_lt hlt (by simp)
  · simp [nextTarget] at ht
  · -- a cell of a table
    have hstep : [n₁, n₂, n₃] < [n₁, n₂, n₃ + 1] := by simp [cons_lt_cons_iff]
    rcases hc with ⟨b, hb, hturn⟩ | ⟨-, hleast⟩
    · obtain ⟨t', v, xs, s, -, heq, rfl⟩ := (h.blockOf b hb).turns hturn
      obtain ⟨rfl, rfl, rfl, -⟩ : n₁ = t' ∧ n₂ = 1 ∧ n₃ + 1 = v ∧ 0 :: inst = xs := by
        simpa [skipColumn] using heq
      exact hstep
    · have hlt : skipColumn (n₁ :: n₂ :: n₃ :: i :: inst) < c' := hleast.1.2
      exact hstep.trans_le (take_le_take hlt.le 3)

theorem lt_of_take_lt {k : ℕ} (h : c.take k < c'.take k) : c < c' :=
  not_le.mp fun hle => absurd h (not_lt.mpr (take_le_take hle k))

theorem skipColumn_cons (n : ℕ) (rest : List ℕ) : ∃ rest', skipColumn (n :: rest) = n :: rest' := by
  rcases rest with _ | ⟨e, _ | ⟨v, _ | ⟨i, inst⟩⟩⟩
  · exact ⟨_, rfl⟩
  · exact ⟨_, rfl⟩
  · exact ⟨_, rfl⟩
  · exact ⟨_, rfl⟩

/-- The blocks before the one where a cell was found do not matter for the search behind it. -/
theorem nextInBlocks_again (h : Ascending objs tab) (hnext : nextInBlocks tab x = .found blocks c) :
    nextInBlocks blocks (skipColumn c) = nextInBlocks tab (skipColumn c) := by
  obtain ⟨-, l, b, r, rfl, rfl, hinst⟩ := nextInBlocks_nextCell h hnext
  obtain ⟨no, rest, rfl, hno⟩ := (h.blockOf b (by simp)).head_of_instance hinst
  obtain ⟨rest', hskip⟩ := skipColumn_cons no rest
  rw [hskip]
  refine (nextInBlocks_append (fun b' hb' => h.blockOf b' (by simp [hb'])) ?_ rest' (b :: r)).symm
  intro b' hb' n hn
  exact (pairwise_append.mp h.ascending).2.2 b' hb' b mem_cons_self n hn no hno

/-- **The loop comes to its end**, with fuel for the columns ahead. -/
theorem getnextLoop_run (hpure : g.Pure) (h : Ascending g.objs tab) {ks : List (List ℕ)}
    (hks : ∀ s ∈ generated tab, s.take 3 ∈ ks) (st : σ) {fuel : ℕ} {k : List ℕ}
    (hsame : nextInBlocks blocks x = nextInBlocks tab x)
    (hahead : ∀ c, NextCell tab x c → k < c.take 3) (hfuel : ahead ks k < fuel) :
    ∃ r, GetnextRun g st blocks x r ∧ getnextLoop g fuel blocks x st = (r.reply, st) := by
  induction fuel generalizing blocks x k with
  | zero => cases hfuel
  | succ fuel ih =>
    rw [getnextLoop_succ hpure]
    cases hnext : nextInBlocks blocks x with
    | raised => exact ⟨.raised, .raised hnext, rfl⟩
    | nothing => exact ⟨.nothing, .nothing hnext, rfl⟩
    | found blocks' c =>
      cases hread : readCell g c st with
      | some r => exact ⟨r, .read hnext hread, by simp only [hread]⟩
      | none =>
        obtain ⟨t, -, -, ht, -⟩ := readCell_eq_none_iff.mp hread
        have htab := hsame.symm.trans hnext
        have hcell := (nextInBlocks_nextCell h htab).1
        have hlt := ahead_lt_ahead (hahead c hcell) (hks c (hcell.mem_generated h))
        obtain ⟨r, hrun, hloop⟩ := ih (nextInBlocks_again h htab)
          (fun c' hc' => hc'.column_lt h ht) (hlt.trans_le (Nat.lt_succ_iff.mp hfuel))
        exact ⟨r, .skip hnext hread hrun, by simp only [hread, hloop]⟩

/-- **GETNEXT comes to its end**, and returns what its loop comes to. -/
theorem luaGetnext_run (hpure : g.Pure) (x : List ℕ) (st : σ) :
    ∃ r, g.Getnext st x r ∧ luaGetnext g x st = (r.reply, st) := by
  rw [luaGetnext]
  simp only [LuaGroup.Getnext]
  cases hgen : mibGroupIndexesGenerate g.objs with
  | none => exact ⟨.raised, rfl, rfl⟩
  | some tab =>
    have h := ascending_of_generate hgen
    obtain ⟨ks, hlen, hks⟩ := h.exists_columns
    have hahead : ∀ c, NextCell tab x c → [] < c.take 3 := by
      intro c hc
      obtain ⟨b, hb, hinst⟩ := hc.mem_generated h
      obtain ⟨no, rest, rfl, -⟩ := (h.blockOf b hb).head_of_instance hinst
      exact nil_lt_iff.mpr (by simp)
    exact getnextLoop_run hpure h hks st rfl hahead
      (Nat.lt_succ_of_le (countP_le_length.trans hlen))

/-! ### Progress -/

/-- The loop returns the value of the first cell, or of a cell in a column behind it. -/
theorem GetnextRun.value {st : σ} (h : Ascending g.objs tab) {r : GroupNext}
    (hrun : GetnextRun g st blocks x r) (hsame : nextInBlocks blocks x = nextInBlocks tab x)
    {val : LuaVal} {tag : UInt8} {errStat : Int32} (hr : r = .value oid val tag errStat) :
    ∃ c, NextCell tab x c ∧ (c = oid ∨ c.take 3 < oid.take 3) ∧ oid ∈ generated tab ∧
      ∃ t, nextTarget g.objs oid = some t ∧ g.Reads t st val tag errStat := by
  induction hrun with
  | raised hnext => cases hr
  | nothing hnext => cases hr
  | read hnext hread =>
    subst hr
    obtain ⟨rfl, ht⟩ := readCell_value_iff.mp hread
    have hcell := (nextInBlocks_nextCell h (hsame.symm.trans hnext)).1
    exact ⟨_, hcell, .inl rfl, hcell.mem_generated h, ht⟩
  | @skip blocks blocks' x c r hnext hread hrun ih =>
    have htab := hsame.symm.trans hnext
    obtain ⟨t, -, -, ht, -⟩ := readCell_eq_none_iff.mp hread
    obtain ⟨c', hcell', hle, hrest⟩ := ih (nextInBlocks_again h htab) hr
    have hlt := hcell'.column_lt h ht
    refine ⟨c, (nextInBlocks_nextCell h htab).1, .inr ?_, hrest⟩
    rcases hle with rfl | hle
    · exact hlt
    · exact hlt.trans hle

/-- The search does come to the instance that the iterator turns to. -/
theorem GroupTurns.search (h : Ascending objs tab) (hturn : GroupTurns tab x c) :
    ∃ blocks, nextInBlocks tab x = .found blocks c := by
  obtain ⟨b, hb, hturn⟩ := hturn
  have hof := h.blockOf b hb
  obtain ⟨t, v, xs, s, ht, rfl, -⟩ := hof.turns hturn
  obtain ⟨nums, last, hdims, hnums, hlast⟩ := hof.exists_dims
  have hfound : groupIndexTableGetnext (t :: 1 :: v :: xs) b = .found c := by
    rw [hdims, blockTurns_blockDims] at hturn
    rw [hdims, groupIndexTableGetnext_eq hnums, hturn.found hlast hnums []]
    rfl
  obtain ⟨l, r, rfl⟩ := append_of_mem hb
  refine ⟨b :: r, ?_⟩
  rw [nextInBlocks_append (fun b' hb' => h.blockOf b' (by simp [hb'])), nextInBlocks, hfound]
  intro b' hb' n hn
  exact (pairwise_append.mp h.ascending).2.2 b' hb' b mem_cons_self n hn t ht

/-- GETNEXT **makes progress**: its loop comes to an end, and what it returns is a generated cell
behind the request, with the value of that cell. -/
def LuaGroup.Progresses (g : LuaGroup σ) (st : σ) (x : List ℕ) : Prop :=
  ∃ r, g.Getnext st x r ∧ luaGetnext g x st = (r.reply, st) ∧
    ∀ oid val tag errStat, r = .value oid val tag errStat →
      x < oid ∧ (∃ tab, mibGroupIndexesGenerate g.objs = some tab ∧ oid ∈ generated tab) ∧
        ∃ t, nextTarget g.objs oid = some t ∧ g.Reads t st val tag errStat

/-- **Progress of GETNEXT.** It makes progress exactly when the iterator does not turn from the
request to a cell with a value. -/
theorem luaGetnext_progress_iff {g : LuaGroup σ} (hpure : g.Pure) (x : List ℕ) (st : σ) :
    g.Progresses st x ↔
      ¬ ∃ tab c t val tag errStat, mibGroupIndexesGenerate g.objs = some tab ∧ GroupTurns tab x c ∧
        nextTarget g.objs c = some t ∧ g.Reads t st val tag errStat := by
  constructor
  · rintro ⟨r, hrun, hreply, hvalue⟩ ⟨tab, c, t, val, tag, errStat, hgen, hturn, ht, hreads⟩
    have h := ascending_of_generate hgen
    have hread := readCell_value_iff.mpr ⟨rfl, t, ht, hreads⟩
    obtain ⟨blocks, hnext⟩ := hturn.search h
    simp only [LuaGroup.Getnext, hgen] at hrun
    have hr : r = .value c val tag errStat := hrun.unique (.read hnext hread)
    obtain ⟨b, -, nums, last, -, hturn⟩ := hturn
    exact absurd (hvalue _ _ _ _ hr).1 (not_lt.mpr hturn.le)
  · intro hcond
    obtain ⟨r, hrun, hreply⟩ := luaGetnext_run hpure x st
    refine ⟨r, hrun, hreply, fun oid val tag errStat hr => ?_⟩
    cases hgen : mibGroupIndexesGenerate g.objs with
    | none =>
      simp only [LuaGroup.Getnext, hgen] at hrun
      rw [hr] at hrun
      cases hrun
    | some tab =>
      have h := ascending_of_generate hgen
      simp only [LuaGroup.Getnext, hgen] at hrun
      obtain ⟨c, hcell, hcol, hmem, t, ht, hreads⟩ := hrun.value h rfl hr
      refine ⟨?_, ⟨tab, rfl, hmem⟩, t, ht, hreads⟩
      rcases hcell with hturn | ⟨-, hleast⟩
      · -- the iterator turns to a cell of the same column, and the loop leaves that column
        rcases hcol with rfl | hcol
        · exact absurd ⟨tab, c, t, val, tag, errStat, hgen, hturn, ht, hreads⟩ hcond
        · obtain ⟨b, hb, hturn⟩ := hturn
          obtain ⟨tableNo, varNo, xs, s, -, rfl, rfl⟩ := (h.blockOf b hb).turns hturn
          exact lt_of_take_lt (show (tableNo :: 1 :: varNo :: xs).take 3 < oid.take 3 from hcol)
      · rcases hcol with rfl | hcol
        · exact hleast.1.2
        · exact lt_trans hleast.1.2 (lt_of_take_lt hcol)

/-- A table where the first of two cascaded dimensions has the number one twice. -/
def turningGroup : LuaGroup Unit where
  objs := AList.singleton 1
    (.table ⟨AList.singleton 1 (.const asn1TagInt), .cascade [[1, 1], [5, 6]]⟩)
  getF _ _ st := (some (.num 7, none), st)
  setF _ _ _ st := (none, st)

theorem turningGroup_table : mibGroupIndexesGenerate turningGroup.objs =
    some [[[.id 1], [.id 1], [.id 1], [.id 1, .id 1], [.id 5, .id 6]]] := by
  decide

/-- From the first cell of this table GETNEXT goes to the second one. -/
theorem turningGroup_progresses :
    turningGroup.Pure ∧ turningGroup.Progresses () [1, 1, 1, 1, 5] := by
  refine ⟨fun _ _ _ => rfl, (luaGetnext_progress_iff (fun _ _ _ => rfl) _ _).mpr ?_⟩
  rintro ⟨tab, c, -, -, -, -, hgen, hturn, -⟩
  have h := ascending_of_generate hgen
  obtain rfl := some.inj (turningGroup_table.symm.trans hgen)
  have hcell : NextCell _ [1, 1, 1, 1, 5] [1, 1, 1, 1, 6] := (nextInBlocks_nextCell h rfl).1
  obtain rfl := NextCell.unique h (.inl hturn) hcell
  obtain ⟨b, -, nums, last, -, hturn⟩ := hturn
  exact absurd hturn.le (by decide)

/-- From the last cell of this table GETNEXT goes back to the first one. -/
theorem turningGroup_turns : turningGroup.Pure ∧ ¬ turningGroup.Progresses () [1, 1, 1, 1, 6] := by
  refine ⟨fun _ _ _ => rfl, ?_⟩
  rintro ⟨r, hrun, -, hvalue⟩
  have hturn : GetnextRun turningGroup () [[[.id 1], [.id 1], [.id 1], [.id 1, .id 1],
      [.id 5, .id 6]]] [1, 1, 1, 1, 6] (.value [1, 1, 1, 1, 5] (.num 7) asn1TagInt 0) :=
    .read rfl rfl
  simp only [LuaGroup.Getnext, turningGroup_table] at hrun
  exact absurd (hvalue _ _ _ _ (hrun.unique hturn)).1 (by decide)

/-! ### What is passed over -/

/-- **The cells that the loop visits**, as long as they have no value. -/
inductive Visits (g : LuaGroup σ) (st : σ) (tab : List Block) : List ℕ → List ℕ → Prop
  | first {x c : List ℕ} (hc : NextCell tab x c) : Visits g st tab x c
  | behind {x c c' : List ℕ} (hc : NextCell tab x c) (hnone : g.Valueless st c)
      (hvisits : Visits g st tab (skipColumn c) c') : Visits g st tab x c'

/-- **The loop passes over** an instance at the cell `c`: the instance lies between the cell and the
OID that the search goes on with, and the search does not turn back to it. -/
def Passes (tab : List Block) (c o : List ℕ) : Prop :=
  c ≤ o ∧ o ≤ skipColumn c ∧ ∀ s, GroupTurns tab (skipColumn c) s → o < s

/-- GETNEXT misses an instance behind the request: it returns one behind it, or nothing. -/
def GroupNext.Misses (o : List ℕ) : GroupNext → Prop
  | .raised => False
  | .nothing => True
  | .value oid _ _ _ => o < oid

section Walk

variable {g : LuaGroup σ} {st : σ} {tab blocks : List Block} {x o : List ℕ} {r : GroupNext}

/-- What is behind the request is not before the first cell. -/
theorem GetnextRun.exists_nextCell (h : Ascending g.objs tab) (hrun : GetnextRun g st blocks x r)
    (hsame : nextInBlocks blocks x = nextInBlocks tab x) (hok : r ≠ .raised)
    (ho : o ∈ generated tab) (hxo : x < o) : ∃ c, NextCell tab x c ∧ c ≤ o := by
  have hfound : ∀ {blocks' c}, nextInBlocks blocks x = .found blocks' c →
      ∃ c, NextCell tab x c ∧ c ≤ o := by
    intro blocks' c hnext
    have hcell := (nextInBlocks_nextCell h (hsame.symm.trans hnext)).1
    exact ⟨c, hcell, hcell.le_of_behind ho hxo⟩
  cases hrun with
  | raised hnext => exact absurd rfl hok
  | nothing hnext =>
    have hnone := (nextInBlocks_nothing h (hsame.symm.trans hnext)).2
    exact absurd (show o ∈ generated tab ∩ Ioi x from ⟨ho, hxo⟩) (by simp [hnone])
  | read hnext hread | skip hnext hread hrun => exact hfound hnext

/-- What comes before the first cell is missed. -/
theorem GetnextRun.misses_of_lt (h : Ascending g.objs tab) (hrun : GetnextRun g st blocks x r)
    (hsame : nextInBlocks blocks x = nextInBlocks tab x) (hok : r ≠ .raised)
    (hlt : ∀ c, NextCell tab x c → o < c) : r.Misses o := by
  cases r with
  | raised => exact hok rfl
  | nothing => trivial
  | value oid val tag errStat =>
    obtain ⟨c, hcell, rfl | hcol, -⟩ := hrun.value h hsame rfl
    · exact hlt c hcell
    · exact (hlt c hcell).trans (lt_of_take_lt hcol)

/-- **What GETNEXT misses** of the instances with a value from the first cell on: those that it
passes over at a visited cell. The induction is over the rounds of the loop. -/
theorem GetnextRun.misses_iff (h : Ascending g.objs tab) (hrun : GetnextRun g st blocks x r)
    (hsame : nextInBlocks blocks x = nextInBlocks tab x) (hok : r ≠ .raised)
    (ho : o ∈ generated tab) (hahead : ∃ c, NextCell tab x c ∧ c ≤ o) :
    r.Misses o ↔ ∃ c, Visits g st tab x c ∧ g.Valueless st c ∧ Passes tab c o := by
  induction hrun with
  | raised hnext => exact absurd rfl hok
  | nothing hnext =>
    obtain ⟨hturn, hnone⟩ := nextInBlocks_nothing h (hsame.symm.trans hnext)
    obtain ⟨c, hturn' | ⟨-, hleast⟩, -⟩ := hahead
    · exact absurd hturn' (hturn c)
    · exact absurd hleast.1 (by simp [hnone])
  | @read blocks blocks' x c r hnext hread =>
    obtain ⟨c', hcell', hle⟩ := hahead
    obtain rfl := hcell'.unique h (nextInBlocks_nextCell h (hsame.symm.trans hnext)).1
    have hvalue : ¬ g.Valueless st c' := by
      rw [← readCell_eq_none_iff, hread]
      simp
    refine iff_of_false (fun hmiss => ?_) ?_
    · cases r with
      | raised => exact hok rfl
      | nothing => exact readCell_ne_nothing hread
      | value oid val tag errStat =>
        obtain ⟨rfl, -⟩ := readCell_value_iff.mp hread
        exact absurd hmiss (not_lt.mpr hle)
    · rintro ⟨c, hvisits, hnone, -⟩
      cases hvisits with
      | first hc => exact hvalue (hc.unique h hcell' ▸ hnone)
      | behind hc hnone' hvisits => exact hvalue (hc.unique h hcell' ▸ hnone')
  | @skip blocks blocks' x c r hnext hread hrun ih =>
    have htab := hsame.symm.trans hnext
    have hcell := (nextInBlocks_nextCell h htab).1
    have hnone := readCell_eq_none_iff.mp hread
    obtain ⟨c', hcell', hle⟩ := hahead
    obtain rfl := hcell'.unique h hcell
    have hvisits : (∃ d, Visits g st tab x d ∧ g.Valueless st d ∧ Passes tab d o) ↔
        Passes tab c' o ∨
          ∃ d, Visits g st tab (skipColumn c') d ∧ g.Valueless st d ∧ Passes tab d o := by
      constructor
      · rintro ⟨d, hvisits, hd, hpass⟩
        cases hvisits with
        | first hc => exact .inl (hc.unique h hcell ▸ hpass)
        | behind hc hnone' hvisits =>
          obtain rfl := hc.unique h hcell
          exact .inr ⟨d, hvisits, hd, hpass⟩
      · rintro (hpass | ⟨d, hvisits, hd, hpass⟩)
        · exact ⟨c', .first hcell, hnone, hpass⟩
        · exact ⟨d, .behind hcell hnone hvisits, hd, hpass⟩
    rw [hvisits]
    have hagain := nextInBlocks_again h htab
    by_cases hahead' : ∃ d, NextCell tab (skipColumn c') d ∧ d ≤ o
    · -- the next cell is not behind the instance, so that nothing is decided here
      have hpass : ¬ Passes tab c' o := by
        rintro ⟨-, hskip, hturn⟩
        obtain ⟨d, hd | ⟨-, hleast⟩, hdo⟩ := hahead'
        · exact absurd (hturn d hd) (not_lt.mpr hdo)
        · exact absurd (lt_of_lt_of_le hleast.1.2 hdo) (not_lt.mpr hskip)
      rw [ih hagain hok hahead']
      exact (or_iff_right hpass).symm
    · -- the search goes on behind the instance
      have hbefore : ∀ d, NextCell tab (skipColumn c') d → o < d :=
        fun d hd => not_le.mp fun hdo => hahead' ⟨d, hd, hdo⟩
      refine iff_of_true (hrun.misses_of_lt h hagain hok hbefore) (.inl ⟨hle, ?_, ?_⟩)
      · exact not_lt.mp fun hlt => hahead' (hrun.exists_nextCell h hagain hok ho hlt)
      · exact fun s hs => hbefore s (.inl hs)

end Walk

/-- GETNEXT **skips nothing**: no accessible instance with a value lies between the request and what
it returns, or behind the request when it returns nothing. -/
def LuaGroup.SkipsNothing (g : LuaGroup σ) (st : σ) (x : List ℕ) : Prop :=
  ∃ r, g.Getnext st x r ∧ luaGetnext g x st = (r.reply, st) ∧
    ∀ tab o, mibGroupIndexesGenerate g.objs = some tab → o ∈ generated tab → g.HasValue st o →
      x < o → ¬ r.Misses o

/-- **What GETNEXT skips.** A request that raises no error misses no accessible instance with a
value exactly when the loop passes over none at a visited cell that has no value itself. -/
theorem luaGetnext_skips_nothing_iff {g : LuaGroup σ} (hpure : g.Pure) (x : List ℕ) (st : σ)
    (hok : (luaGetnext g x st).1 ≠ .fail) :
    g.SkipsNothing st x ↔
      ∀ tab c o, mibGroupIndexesGenerate g.objs = some tab → Visits g st tab x c →
        g.Valueless st c → o ∈ generated tab → g.HasValue st o → x < o → ¬ Passes tab c o := by
  have hmisses : ∀ r tab o, g.Getnext st x r → luaGetnext g x st = (r.reply, st) →
      mibGroupIndexesGenerate g.objs = some tab → o ∈ generated tab → x < o →
      (r.Misses o ↔ ∃ c, Visits g st tab x c ∧ g.Valueless st c ∧ Passes tab c o) := by
    intro r tab o hrun hreply hgen ho hxo
    have h := ascending_of_generate hgen
    simp only [LuaGroup.Getnext, hgen] at hrun
    have hraised : r ≠ .raised := by
      rintro rfl
      exact hok (by rw [hreply]; rfl)
    exact hrun.misses_iff h rfl hraised ho (hrun.exists_nextCell h rfl hraised ho hxo)
  constructor
  · rintro ⟨r, hrun, hreply, hnone⟩ tab c o hgen hvisits hc ho hvalue hxo hpass
    exact hnone tab o hgen ho hvalue hxo
      ((hmisses r tab o hrun hreply hgen ho hxo).mpr ⟨c, hvisits, hc, hpass⟩)
  · intro hcond
    obtain ⟨r, hrun, hreply⟩ := luaGetnext_run hpure x st
    refine ⟨r, hrun, hreply, fun tab o hgen ho hvalue hxo hmiss => ?_⟩
    obtain ⟨c, hvisits, hc, hpass⟩ := (hmisses r tab o hrun hreply hgen ho hxo).mp hmiss
    exact hcond tab c o hgen hvisits hc ho hvalue hxo hpass

/-- A table with two columns and two rows, where the first cell is nil. -/
def sparseGroup : LuaGroup Unit where
  objs := AList.singleton 1 (.table ⟨(AList.singleton 1 (.const asn1TagInt)).insert 2
    (.const asn1TagInt), .keys [.num 1, .num 2]⟩)
  getF path inst st :=
    (some (if path = [1, 1, 1] ∧ inst = [1] then .nil else .num 7, none), st)
  setF _ _ _ st := (none, st)

theorem sparseGroup_table : mibGroupIndexesGenerate sparseGroup.objs =
    some [[[.id 1], [.id 1], [.id 1, .id 2], [.id 1, .id 2]]] := by
  decide

/-- From the cell without a value GETNEXT goes to the one behind it, and nothing is skipped. -/
theorem sparseGroup_skips_nothing :
    sparseGroup.Pure ∧ (luaGetnext sparseGroup [1, 1, 1, 1] ()).1 ≠ .fail ∧
      sparseGroup.SkipsNothing () [1, 1, 1, 1] := by
  refine ⟨fun _ _ _ => rfl, by decide,
    (luaGetnext_skips_nothing_iff (fun _ _ _ => rfl) _ _ (by decide)).mpr ?_⟩
  intro tab c o hgen hvisits hc _ _ _ _
  have h := ascending_of_generate hgen
  obtain rfl := some.inj (sparseGroup_table.symm.trans hgen)
  have hcell : NextCell _ [1, 1, 1, 1] [1, 1, 1, 2] := (nextInBlocks_nextCell h rfl).1
  have hvalue : ¬ sparseGroup.Valueless () [1, 1, 1, 2] := by
    rw [← readCell_eq_none_iff]
    exact some_ne_none (GroupNext.value [1, 1, 1, 2] (.num 7) asn1TagInt 0)
  -- the cell behind the request has a value, and is the only one that is visited
  cases hvisits with
  | first hfirst => exact hvalue (hfirst.unique h hcell ▸ hc)
  | behind hfirst hnone _ => exact hvalue (hfirst.unique h hcell ▸ hnone)

/-- From the start GETNEXT goes to the second column of this table, over the second row of the
first column. -/
theorem sparseGroup_skips :
    sparseGroup.Pure ∧ (luaGetnext sparseGroup [] ()).1 ≠ .fail ∧
      ¬ sparseGroup.SkipsNothing () [] := by
  refine ⟨fun _ _ _ => rfl, by decide, ?_⟩
  rintro ⟨r, hrun, -, hnone⟩
  have hskip : GetnextRun sparseGroup () [[[.id 1], [.id 1], [.id 1, .id 2], [.id 1, .id 2]]] []
      (.value [1, 1, 2, 1] (.num 7) asn1TagInt 0) := .skip rfl rfl (.read rfl rfl)
  have hinst : [1, 1, 1, 2] ∈ generated [[[.id 1], [.id 1], [.id 1, .id 2], [.id 1, .id 2]]] :=
    ⟨_, mem_singleton_self _, .id 1, by decide, _, rfl, .id 1, by decide, _, rfl, .id 1,
      by decide, _, rfl, .id 2, by decide, _, rfl, rfl⟩
  have hvalue : sparseGroup.HasValue () [1, 1, 1, 2] :=
    ⟨_, _, _, rfl, rfl, by decide, by decide⟩
  refine hnone _ _ sparseGroup_table hinst hvalue (by decide) ?_
  simp only [LuaGroup.Getnext, sparseGroup_table] at hrun
  rw [hrun.unique hskip]
  show ([1, 1, 1, 2] : List ℕ) < [1, 1, 2, 1]
  decide

end SmithSnmp
