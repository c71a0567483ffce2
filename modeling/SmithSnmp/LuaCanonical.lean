import Mathlib.Data.List.Chain
import Mathlib.Data.List.Perm.Basic
import SmithSnmp.LuaGroup

/-!
# Canonical Index Tables

`mib_group_indexes_generate` goes through the keys of a group, of the entries of its tables and of
their indexes with `pairs`, which enumerates the keys of a Lua table in no particular order. The
blocks are sorted while they are collected, the scalars are sorted and put between the tables in
the end.

A group is modelled with its keys in the order of `pairs`. `SameGroup` relates two such orders of
one group, and the index table is the same for both of them. What it is like is said by
`CanonicalBlocks`: a table is a block of its own, and two scalars are in one block exactly when
there is no table between them.

## Main result

* `mibGroupIndexesGenerate_canonical`
-/

namespace SmithSnmp

open List Option

variable {objs : LuaObjects} {tab : List Block} {no m n : ℕ} {b : Block}

/-! ### Orders of enumeration -/

/-- The same indexes, with their keys in another order. Cascaded indexes are a list. -/
inductive SameIndexes : Indexes → Indexes → Prop
  | cascade (dims : List (List ℕ)) : SameIndexes (.cascade dims) (.cascade dims)
  | keys {ks ks' : List IndexKey} (h : ks'.Perm ks) : SameIndexes (.keys ks) (.keys ks')

/-- The same object, with the keys of its entry in another order. -/
inductive SameObject : LuaObject → LuaObject → Prop
  | scalar (v : LuaVariable) : SameObject (.scalar v) (.scalar v)
  | table {entry entry' : LuaEntry} (vars : entry'.vars.entries.Perm entry.vars.entries)
      (indexes : SameIndexes entry.indexes entry'.indexes) :
      SameObject (.table entry) (.table entry')

/-- The same object number with the same object. -/
def SameEntry (e e' : Sigma fun _ : ℕ => LuaObject) : Prop := e'.1 = e.1 ∧ SameObject e.2 e'.2

/-- The same group, with all of its keys in another order. -/
def SameGroup (objs objs' : LuaObjects) : Prop :=
  ∃ es, es.Perm objs.entries ∧ List.Forall₂ SameEntry es objs'.entries

/-- The keys of the indexes are numbers, unless they are cascaded. -/
def Indexes.Numeric : Indexes → Prop
  | .cascade _ => True
  | .keys ks => ∀ k ∈ ks, ∃ n, k = .num n

/-- The indexes of a table are numeric. -/
def LuaObject.Numeric : LuaObject → Prop
  | .scalar _ => True
  | .table entry => entry.indexes.Numeric

theorem SameIndexes.refl (ix : Indexes) : SameIndexes ix ix := by
  cases ix with
  | cascade dims => exact .cascade dims
  | keys ks => exact .keys (List.Perm.refl ks)

theorem SameObject.refl (obj : LuaObject) : SameObject obj obj := by
  cases obj with
  | scalar v => exact .scalar v
  | table entry => exact .table (List.Perm.refl _) (SameIndexes.refl _)

theorem SameGroup.refl (objs : LuaObjects) : SameGroup objs objs :=
  ⟨objs.entries, List.Perm.refl _, List.forall₂_same.mpr fun e _ => ⟨rfl, SameObject.refl e.2⟩⟩

/-! ### The blocks of a table -/

/-- Sorted numbers do not depend on the order before. -/
theorem insertionSort_eq_of_perm {l l' : List ℕ} (h : l'.Perm l) :
    l'.insertionSort (· ≤ ·) = l.insertionSort (· ≤ ·) :=
  List.Perm.eq_of_pairwise' (pairwise_insertionSort _ _) (pairwise_insertionSort _ _)
    (((perm_insertionSort _ _).trans h).trans (perm_insertionSort _ _).symm)

/-- Sorted numbers, as a dimension of a block. -/
def SortedDim (d : List Index) : Prop := ∃ ns : List ℕ, ns.Pairwise (· ≤ ·) ∧ d = ns.map .id

theorem sortedDim_insertionSort (ns : List ℕ) :
    SortedDim ((ns.insertionSort (· ≤ ·)).map .id) :=
  ⟨_, pairwise_insertionSort _ _, rfl⟩

theorem sortedDim_singleton (n : ℕ) : SortedDim [.id n] := ⟨[n], pairwise_singleton _ _, rfl⟩

theorem indexDims_keys {ks : List IndexKey} (h : (Indexes.keys ks).Numeric) :
    ∃ ns : List ℕ, ks = ns.map .num ∧
      indexDims (.keys ks) = some [(ns.insertionSort (· ≤ ·)).map .id] := by
  have hns : ∃ ns : List ℕ, ks = ns.map .num := by
    induction ks with
    | nil => exact ⟨[], rfl⟩
    | cons k ks ih =>
      obtain ⟨⟨n, rfl⟩, hks⟩ := forall_mem_cons.mp h
      obtain ⟨ns, rfl⟩ := ih hks
      exact ⟨n :: ns, rfl⟩
  obtain ⟨ns, rfl⟩ := hns
  exact ⟨ns, rfl, by simp [indexDims, filterMap_map]⟩

/-- Numeric indexes have sorted dimensions. -/
theorem Indexes.Numeric.dims {ix : Indexes} (h : ix.Numeric) :
    ∃ dims, indexDims ix = some dims ∧ ∀ d ∈ dims, SortedDim d := by
  cases ix with
  | cascade dims =>
    refine ⟨_, rfl, fun d hd => ?_⟩
    obtain ⟨ns, -, rfl⟩ := mem_map.mp hd
    exact sortedDim_insertionSort ns
  | keys ks =>
    obtain ⟨ns, -, hdims⟩ := indexDims_keys h
    refine ⟨_, hdims, fun d hd => ?_⟩
    rw [mem_singleton.mp hd]
    exact sortedDim_insertionSort ns

/-- The dimensions do not depend on the order of the keys. -/
theorem SameIndexes.dims {ix ix' : Indexes} (h : SameIndexes ix ix') (hnum : ix.Numeric) :
    ix'.Numeric ∧ indexDims ix' = indexDims ix := by
  cases h with
  | cascade dims => exact ⟨trivial, rfl⟩
  | @keys ks ks' hperm =>
    have hnum' : (Indexes.keys ks').Numeric := fun k hk => hnum k (hperm.mem_iff.mp hk)
    obtain ⟨ns, rfl, hdims⟩ := indexDims_keys hnum
    obtain ⟨ns', rfl, hdims'⟩ := indexDims_keys hnum'
    have hinj : Function.Injective IndexKey.num := fun _ _ h => IndexKey.num.inj h
    refine ⟨hnum', ?_⟩
    rw [hdims, hdims', insertionSort_eq_of_perm ((map_perm_map_iff hinj).mp hperm)]

/-- The block of a table, if it is one. -/
def tableBlock (e : Sigma fun _ : ℕ => LuaObject) : Option Block :=
  match e.2 with
  | .scalar _ => none
  | .table entry => tableIndexes e.1 entry

/-- The number of a scalar, if it is one. -/
def scalarNo (e : Sigma fun _ : ℕ => LuaObject) : Option ℕ :=
  match e.2 with
  | .scalar _ => some e.1
  | .table _ => none

/-- What is collected from an object does not depend on the order of its keys. -/
theorem SameEntry.collected {e e' : Sigma fun _ : ℕ => LuaObject} (h : SameEntry e e')
    (hnum : e.2.Numeric) :
    e'.2.Numeric ∧ tableBlock e' = tableBlock e ∧ scalarNo e' = scalarNo e := by
  obtain ⟨no, obj⟩ := e
  obtain ⟨no', obj'⟩ := e'
  obtain ⟨hno, hobj⟩ := h
  dsimp only at hno hobj hnum
  subst hno
  cases hobj with
  | scalar v => exact ⟨trivial, rfl, rfl⟩
  | @table entry entry' hvars hix =>
    obtain ⟨hnum', hdims⟩ := hix.dims hnum
    have hkeys : entry'.vars.keys.Perm entry.vars.keys := hvars.map Sigma.fst
    refine ⟨hnum', ?_, rfl⟩
    change tableIndexes no' entry' = tableIndexes no' entry
    rw [tableIndexes, tableIndexes, hdims, insertionSort_eq_of_perm hkeys]

/-- What is collected from the objects, one by one. -/
theorem forall₂_collected {es es' : List (Sigma fun _ : ℕ => LuaObject)}
    (h : List.Forall₂ SameEntry es es') (hnum : ∀ e ∈ es, e.2.Numeric) :
    (∀ e ∈ es', e.2.Numeric) ∧ es'.filterMap tableBlock = es.filterMap tableBlock ∧
      es'.filterMap scalarNo = es.filterMap scalarNo := by
  induction h with
  | nil => exact ⟨by simp, rfl, rfl⟩
  | @cons e e' es es' he _ ih =>
    obtain ⟨hnum₁, hnums⟩ := forall_mem_cons.mp hnum
    obtain ⟨hnum₁', htable, hscalar⟩ := he.collected hnum₁
    obtain ⟨hnums', htables, hscalars⟩ := ih hnums
    refine ⟨forall_mem_cons.mpr ⟨hnum₁', hnums'⟩, ?_, ?_⟩
    · rw [filterMap_cons, filterMap_cons, htable, htables]
    · rw [filterMap_cons, filterMap_cons, hscalar, hscalars]

/-! ### The loop over the objects -/

/-- The loop collects the blocks of the tables and the numbers of the scalars. -/
theorem collectIndexes_perm {es : List (Sigma fun _ : ℕ => LuaObject)}
    (hnum : ∀ e ∈ es, e.2.Numeric) (blocks : List Block) (scalars : List ℕ) :
    ∃ blocks', collectIndexes es blocks scalars =
        some (blocks', scalars ++ es.filterMap scalarNo) ∧
      blocks'.Perm (es.filterMap tableBlock ++ blocks) := by
  induction es generalizing blocks scalars with
  | nil => exact ⟨blocks, by simp [collectIndexes], List.Perm.refl _⟩
  | cons e es ih =>
    obtain ⟨no, obj⟩ := e
    obtain ⟨hnum₁, hnums⟩ := forall_mem_cons.mp hnum
    cases obj with
    | scalar v =>
      obtain ⟨blocks', hrun, hperm⟩ := ih hnums blocks (scalars ++ [no])
      refine ⟨blocks', ?_, hperm⟩
      rw [collectIndexes, hrun, append_assoc]
      rfl
    | table entry =>
      obtain ⟨dims, hdims, -⟩ := Indexes.Numeric.dims hnum₁
      obtain ⟨b, hb⟩ : ∃ b, tableIndexes no entry = some b := by
        rw [tableIndexes, hdims]
        exact ⟨_, rfl⟩
      obtain ⟨blocks', hrun, hperm⟩ := ih hnums (insertBlock b blocks) scalars
      have htable : tableBlock ⟨no, .table entry⟩ = some b := hb
      have hscalar : scalarNo ⟨no, .table entry⟩ = none := rfl
      refine ⟨blocks', ?_, ?_⟩
      · simp only [collectIndexes, hb]
        rw [hrun, filterMap_cons, hscalar]
      · rw [filterMap_cons, htable]
        refine hperm.trans ?_
        exact ((insertBlock_perm b blocks).append_left _).trans perm_middle

/-- **The order of the keys makes no difference.** -/
theorem SameGroup.generate {objs' : LuaObjects} (h : SameGroup objs objs')
    (hnum : ∀ no obj, objs.lookup no = some obj → obj.Numeric)
    (htab : mibGroupIndexesGenerate objs = some tab) :
    mibGroupIndexesGenerate objs' = some tab := by
  have hnum' : ∀ e ∈ objs.entries, e.2.Numeric := fun e he =>
    hnum e.1 e.2 (AList.mem_lookup_iff.mpr he)
  obtain ⟨es, hperm, hsame⟩ := h
  obtain ⟨hnums, htables, hscalars⟩ :=
    forall₂_collected hsame fun e he => hnum' e (hperm.mem_iff.mp he)
  obtain ⟨blocks, hrun, hblocks⟩ := collectIndexes_perm hnum' [] []
  obtain ⟨blocks', hrun', hblocks'⟩ := collectIndexes_perm hnums [] []
  have htab' : mibGroupIndexesGenerate objs' = some (separateScalars blocks'
      ((objs'.entries.filterMap scalarNo).insertionSort (· ≤ ·))) := by
    rw [mibGroupIndexesGenerate_eq, hrun', nil_append]
    rfl
  obtain ⟨bs, scs, hrun₁, hc, rfl⟩ := mibGroupIndexesGenerate_collected htab
  obtain ⟨bs', scs', hrun₁', hc', -⟩ := mibGroupIndexesGenerate_collected htab'
  obtain ⟨rfl, rfl⟩ := Prod.mk.inj (some.inj (hrun.symm.trans hrun₁))
  obtain ⟨rfl, rfl⟩ := Prod.mk.inj (some.inj (hrun'.symm.trans hrun₁'))
  -- both lists of blocks are sorted by the table numbers, and a number has one table
  have heq : blocks' = blocks := by
    have hall : blocks'.Perm blocks := by
      rw [append_nil] at hblocks hblocks'
      rw [htables] at hblocks'
      exact (hblocks'.trans (hperm.filterMap tableBlock)).trans hblocks.symm
    refine List.Perm.eq_of_pairwise (fun b b' hb hb' hle hge => ?_)
      (pairwise_map.mp hc'.sorted) (pairwise_map.mp hc.sorted) hall
    obtain ⟨no, entry, hobj, htable⟩ := hc.table b (hall.mem_iff.mp hb)
    obtain ⟨no', entry', hobj', htable'⟩ := hc.table b' hb'
    obtain rfl : no' = no := by
      rw [← (heads_tableIndexes htable).2, ← (heads_tableIndexes htable').2]
      exact Nat.le_antisymm hge hle
    obtain rfl := LuaObject.table.inj (some.inj (hobj.symm.trans hobj'))
    exact some.inj (htable.symm.trans htable')
  have hsort : (objs'.entries.filterMap scalarNo).insertionSort (· ≤ ·) =
      (objs.entries.filterMap scalarNo).insertionSort (· ≤ ·) := by
    rw [hscalars]
    exact insertionSort_eq_of_perm (hperm.filterMap scalarNo)
  rw [htab', heq, hsort, nil_append]

/-! ### Tables and the scalars between them -/

/-- The object is a scalar of the group. -/
def IsScalar (objs : LuaObjects) (no : ℕ) : Prop := ∃ v, objs.lookup no = some (.scalar v)

/-- The object is a table of the group. -/
def IsTable (objs : LuaObjects) (no : ℕ) : Prop := ∃ entry, objs.lookup no = some (.table entry)

/-- The block is one of scalars. -/
def IsScalarBlock (b : Block) : Prop := ∃ nos, b = scalarIndexes nos

theorem IsScalar.not_isTable (h : IsScalar objs no) : ¬ IsTable objs no := by
  obtain ⟨v, hv⟩ := h
  rintro ⟨entry, hentry⟩
  cases some.inj (hv.symm.trans hentry)

theorem not_isScalarBlock_of_table {tableNo : ℕ} {entry : LuaEntry}
    (h : tableIndexes tableNo entry = some b) : ¬ IsScalarBlock b := by
  obtain ⟨dims, -, rfl⟩ := tableIndexes_eq_some.mp h
  rintro ⟨nos, heq⟩
  simp [scalarIndexes] at heq

/-- Scalars are put before tables, so no two blocks of scalars come one after the other. -/
theorem separateScalars_alternates {blocks : List Block} (h : ∀ b ∈ blocks, ¬ IsScalarBlock b)
    (scalars : List ℕ) :
    (separateScalars blocks scalars).IsChain
      fun b b' => ¬ (IsScalarBlock b ∧ IsScalarBlock b') := by
  induction blocks generalizing scalars with
  | nil =>
    rw [separateScalars]
    split
    · exact List.IsChain.nil
    · exact List.IsChain.singleton _
  | cons b bs ih =>
    obtain ⟨hb, hbs⟩ := forall_mem_cons.mp h
    have hrest : (b :: separateScalars bs (scalars.dropWhile (· ≤ blockNo b))).IsChain
        fun b b' => ¬ (IsScalarBlock b ∧ IsScalarBlock b') :=
      isChain_cons.mpr ⟨fun _ _ hand => hb hand.1, ih hbs _⟩
    rw [separateScalars]
    split
    · exact hrest
    · exact isChain_cons_cons.mpr ⟨fun hand => hb hand.2, hrest⟩

/-- The block of a scalar is one of scalars. -/
theorem BlockOf.isScalarBlock (h : BlockOf objs b) (hno : IsScalar objs no) (hmem : no ∈ heads b) :
    IsScalarBlock b := by
  cases h with
  | scalars nos => exact ⟨nos, rfl⟩
  | table tableNo entry _ hobj hb =>
    rw [(heads_tableIndexes hb).1, mem_singleton] at hmem
    subst hmem
    exact absurd ⟨entry, hobj⟩ hno.not_isTable

theorem exists_tableBlock (h : mibGroupIndexesGenerate objs = some tab) {entry : LuaEntry}
    (hobj : objs.lookup no = some (.table entry)) :
    ∃ b ∈ tab, heads b = [no] ∧ tableIndexes no entry = some b := by
  obtain ⟨b, hb, hmem⟩ := exists_block h (AList.lookup_isSome.mp (by rw [hobj]; rfl))
  cases (mibGroupIndexesGenerate_spec h).1 b hb with
  | scalars nos _ hscalars =>
    rw [heads_scalarIndexes] at hmem
    exact absurd ⟨entry, hobj⟩ (IsScalar.not_isTable (hscalars no hmem))
  | table tableNo entry' _ hobj' hb' =>
    have hheads := (heads_tableIndexes hb').1
    rw [hheads, mem_singleton] at hmem
    subst hmem
    obtain rfl := LuaObject.table.inj (some.inj (hobj.symm.trans hobj'))
    exact ⟨b, hb, hheads, hb'⟩

/-- The numbers of one block have no table between them. -/
theorem not_between_of_mem_heads (h : mibGroupIndexesGenerate objs = some tab) (hb : b ∈ tab)
    {t : ℕ} (hm : m ∈ heads b) (hn : n ∈ heads b) (ht : IsTable objs t) : ¬ (m < t ∧ t < n) := by
  rintro ⟨hmt, htn⟩
  obtain ⟨entry, hobj⟩ := ht
  obtain ⟨bt, hbt, hheads, -⟩ := exists_tableBlock h hobj
  obtain ⟨l, r, rfl, hl, hr⟩ := generate_ascending h hbt (hheads ▸ mem_singleton_self t)
  rcases mem_append.mp hb with hb | hb
  · exact absurd (hl b hb n hn) htn.asymm
  · rcases mem_cons.mp hb with rfl | hb
    · rw [hheads, mem_singleton] at hm
      exact absurd hmt (hm ▸ lt_irrefl t)
    · exact absurd (hr b hb m hm) hmt.asymm

/-- Scalars in different blocks have a table between them: the block behind the first one. -/
theorem exists_between_of_ne_block {l r : List Block} {b' : Block}
    (h : mibGroupIndexesGenerate objs = some tab) (htab : tab = l ++ b :: r) (hb' : b' ∈ r)
    (hm : IsScalar objs m) (hmb : m ∈ heads b) (hn : IsScalar objs n) (hnb : n ∈ heads b') :
    ∃ t, IsTable objs t ∧ m < t ∧ t < n := by
  obtain ⟨hof, hasc, -⟩ := mibGroupIndexesGenerate_spec h
  obtain ⟨blocks, scalars, -, hc, hsep⟩ := mibGroupIndexesGenerate_collected h
  have halt := separateScalars_alternates (fun b hb => by
    obtain ⟨tableNo, entry, -, hb⟩ := hc.table b hb
    exact not_isScalarBlock_of_table hb) (scalars.insertionSort (· ≤ ·))
  rw [← hsep] at halt
  cases r with
  | nil => cases hb'
  | cons b₂ r =>
    subst htab
    have hscalar : IsScalarBlock b := (hof b (by simp)).isScalarBlock hm hmb
    have hnot : ¬ IsScalarBlock b₂ := fun h₂ =>
      (isChain_append_cons_cons.mp halt).2.1 ⟨hscalar, h₂⟩
    obtain ⟨-, hpair, -⟩ := pairwise_append.mp (pairwise_flatMap.mp hasc).2
    obtain ⟨hbehind, hpair⟩ := pairwise_cons.mp hpair
    obtain ⟨hbehind₂, -⟩ := pairwise_cons.mp hpair
    cases hof b₂ (by simp) with
    | scalars nos => exact absurd ⟨nos, rfl⟩ hnot
    | table t entry _ hobj ht =>
      have hheads := (heads_tableIndexes ht).1
      have htmem : t ∈ heads b₂ := hheads ▸ mem_singleton_self t
      refine ⟨t, ⟨entry, hobj⟩, hbehind b₂ mem_cons_self m hmb t htmem, ?_⟩
      rcases mem_cons.mp hb' with rfl | hb'
      · rw [hheads, mem_singleton] at hnb
        exact absurd ⟨entry, hobj⟩ (hnb ▸ hn).not_isTable
      · exact hbehind₂ b' hb' t htmem n hnb

/-- Two scalars are in one block if and only if there is no table between them. -/
theorem generate_scalars_iff (h : mibGroupIndexesGenerate objs = some tab) (hm : IsScalar objs m)
    (hn : IsScalar objs n) (hle : m ≤ n) :
    (∃ b ∈ tab, m ∈ heads b ∧ n ∈ heads b) ↔ ∀ t, IsTable objs t → ¬ (m < t ∧ t < n) := by
  have hmem : ∀ {no}, IsScalar objs no → no ∈ objs := by
    rintro no ⟨v, hv⟩
    exact AList.lookup_isSome.mp (by rw [hv]; rfl)
  constructor
  · rintro ⟨b, hb, hmb, hnb⟩ t ht
    exact not_between_of_mem_heads h hb hmb hnb ht
  · intro hnone
    obtain ⟨b, hb, hmb⟩ := exists_block h (hmem hm)
    obtain ⟨b', hb', hnb⟩ := exists_block h (hmem hn)
    obtain ⟨l, r, htab, hl, -⟩ := generate_ascending h hb hmb
    rw [htab] at hb'
    rcases mem_append.mp hb' with hb' | hb'
    · exact absurd (hl b' hb' n hnb) (not_lt.mpr hle)
    · rcases mem_cons.mp hb' with rfl | hb'
      · exact ⟨b', hb, hmb, hnb⟩
      · obtain ⟨t, ht, hbetween⟩ := exists_between_of_ne_block h htab hb' hm hmb hn hnb
        exact absurd hbetween (hnone t ht)

/-! ### Index tables -/

/-- The index table of a group. -/
structure CanonicalBlocks (objs : LuaObjects) (tab : List Block) : Prop where
  /-- each object number is in one block -/
  once : ∀ no ∈ objs, ∃ l b r, tab = l ++ b :: r ∧ no ∈ heads b ∧ ∀ b' ∈ l ++ r, no ∉ heads b'
  /-- there are no other numbers, and they ascend -/
  numbers : (∀ b ∈ tab, ∀ no ∈ heads b, no ∈ objs) ∧ (tab.flatMap heads).Pairwise (· < ·)
  /-- a table is a block of its own with sorted dimensions -/
  table : ∀ no entry, objs.lookup no = some (.table entry) → ∃ b ∈ tab, heads b = [no] ∧
    tableIndexes no entry = some b ∧ ∀ d ∈ b, SortedDim d
  /-- two scalars are in one block when there is no table between them -/
  scalars : ∀ m n, IsScalar objs m → IsScalar objs n → m ≤ n →
    ((∃ b ∈ tab, m ∈ heads b ∧ n ∈ heads b) ↔ ∀ t, IsTable objs t → ¬ (m < t ∧ t < n))

/-- **The index table is canonical.** For every group whose tables have numeric or cascaded indexes,
`mib_group_indexes_generate` returns the same blocks in whatever order the keys are enumerated. -/
theorem mibGroupIndexesGenerate_canonical (objs : LuaObjects)
    (hnum : ∀ no obj, objs.lookup no = some obj → obj.Numeric) :
    ∃ tab, (∀ objs', SameGroup objs objs' → mibGroupIndexesGenerate objs' = some tab) ∧
      CanonicalBlocks objs tab := by
  obtain ⟨blocks, hrun, -⟩ := collectIndexes_perm
    (fun e he => hnum e.1 e.2 (AList.mem_lookup_iff.mpr he)) [] []
  have htab : mibGroupIndexesGenerate objs = some (separateScalars blocks
      (([] ++ objs.entries.filterMap scalarNo).insertionSort (· ≤ ·))) := by
    rw [mibGroupIndexesGenerate_eq, hrun]
    rfl
  generalize separateScalars blocks _ = tab at htab
  obtain ⟨-, hasc, hperm⟩ := mibGroupIndexesGenerate_spec htab
  refine ⟨tab, fun objs' hsame => hsame.generate hnum htab, ⟨?_, ⟨?_, hasc⟩, ?_, ?_⟩⟩
  · intro no hno
    obtain ⟨b, hb, hmem⟩ := exists_block htab hno
    obtain ⟨l, r, heq, hl, hr⟩ := generate_ascending htab hb hmem
    refine ⟨l, b, r, heq, hmem, fun b' hb' hmem' => ?_⟩
    rcases mem_append.mp hb' with hb' | hb'
    · exact lt_irrefl no (hl b' hb' no hmem')
    · exact lt_irrefl no (hr b' hb' no hmem')
  · intro b hb no hno
    exact AList.mem_keys.mpr (hperm.mem_iff.mp (mem_flatMap.mpr ⟨b, hb, hno⟩))
  · intro no entry hobj
    obtain ⟨b, hb, hheads, htable⟩ := exists_tableBlock htab hobj
    refine ⟨b, hb, hheads, htable, ?_⟩
    obtain ⟨dims, hdims, rfl⟩ := tableIndexes_eq_some.mp htable
    obtain ⟨dims', hdims', hsorted⟩ := Indexes.Numeric.dims (hnum no _ hobj)
    obtain rfl := some.inj (hdims.symm.trans hdims')
    simp only [forall_mem_cons]
    exact ⟨sortedDim_singleton no, sortedDim_singleton 1, sortedDim_insertionSort _, hsorted⟩
  · intro m n hm hn hle
    exact generate_scalars_iff htab hm hn hle

/-- A group with a table between two pairs of scalars, in some order. -/
def mixedObjects : LuaObjects where
  entries := [⟨9, .scalar (.const asn1TagInt)⟩, ⟨1, .scalar (.const asn1TagInt)⟩,
    ⟨4, .table ⟨(AList.singleton 2 (.const asn1TagInt)).insert 1 (.const asn1TagInt),
      .keys [.num 3, .num 1]⟩⟩,
    ⟨2, .scalar (.const asn1TagInt)⟩, ⟨7, .scalar (.const asn1TagInt)⟩]
  nodupKeys := by simp [List.NodupKeys, List.keys]

/-- The same group with all of its keys in the opposite order. -/
def mixedObjectsReversed : LuaObjects where
  entries := [⟨7, .scalar (.const asn1TagInt)⟩, ⟨2, .scalar (.const asn1TagInt)⟩,
    ⟨4, .table ⟨(AList.singleton 1 (.const asn1TagInt)).insert 2 (.const asn1TagInt),
      .keys [.num 1, .num 3]⟩⟩,
    ⟨1, .scalar (.const asn1TagInt)⟩, ⟨9, .scalar (.const asn1TagInt)⟩]
  nodupKeys := by simp [List.NodupKeys, List.keys]

theorem mixedObjects_numeric {obj : LuaObject} (h : mixedObjects.lookup no = some obj) :
    obj.Numeric := by
  have hall : ∀ e ∈ mixedObjects.entries, e.2.Numeric := by
    simp [mixedObjects, LuaObject.Numeric, Indexes.Numeric]
  exact hall _ (AList.mem_lookup_iff.mp h)

theorem mixedObjects_same : SameGroup mixedObjects mixedObjectsReversed := by
  refine ⟨mixedObjects.entries.reverse, reverse_perm _, ?_⟩
  have hscalar : ∀ no, SameEntry ⟨no, .scalar (.const asn1TagInt)⟩
      ⟨no, .scalar (.const asn1TagInt)⟩ := fun no => ⟨rfl, .scalar _⟩
  exact .cons (hscalar 7) (.cons (hscalar 2)
    (.cons ⟨rfl, .table (List.Perm.swap _ _ _) (.keys (List.Perm.swap _ _ _))⟩
      (.cons (hscalar 1) (.cons (hscalar 9) .nil))))

/-- Both orders give the blocks `{{1,2},{0}}`, `{{4},{1},{1,2},{1,3}}` and `{{7,9},{0}}`. -/
theorem mixedObjects_canonical :
    mibGroupIndexesGenerate mixedObjects = mibGroupIndexesGenerate mixedObjectsReversed ∧
      ∃ tab, mibGroupIndexesGenerate mixedObjects = some tab ∧ CanonicalBlocks mixedObjects tab ∧
        tab.flatMap heads = [1, 2, 4, 7, 9] := by
  obtain ⟨tab, hsame, hcanonical⟩ :=
    mibGroupIndexesGenerate_canonical mixedObjects fun _ _ => mixedObjects_numeric
  have hfirst := hsame _ (SameGroup.refl _)
  refine ⟨hfirst.trans (hsame _ mixedObjects_same).symm, tab, hfirst, hcanonical, ?_⟩
  have hnos : (mibGroupIndexesGenerate mixedObjects).map (fun tab => tab.flatMap heads) =
      some [1, 2, 4, 7, 9] := by
    decide +kernel
  rw [hfirst] at hnos
  exact some.inj hnos

end SmithSnmp
