import SmithSnmp.LuaGroup

/-!
# GET and GETNEXT of a Lua Group

The handler of a group finds a variable in two ways. GETNEXT looks for the next instance with the
index iterator, block by block and again behind every variable that has no value. GET looks the
numbers of the OID up in the tables of the group. Both are compared here for functions `get_f` that
change nothing.

Whatever GETNEXT returns, GET returns the same for it. But it need not lie behind the request: when a
dimension of a table has a number twice, with nothing else to choose behind it, then the iterator
comes back to an instance that the request goes beyond.

## Main results

* `getnextLoop_invariant`: what every round keeps holds where the value is found.
* `luaGetnext_found`: GET agrees with GETNEXT.
* `stalls_of_luaGetnext`, `luaGetnext_of_stalls`: where GETNEXT stays.
-/

namespace SmithSnmp

open List

variable {σ : Type}

variable {g : LuaGroup σ} {tab blocks' blocks : List Block} {s x oid idx nos z y : List ℕ}
  {t : LuaTarget} {st : σ} {val : LuaVal} {tag : UInt8} {errStat : Int32} {b : Block}
  {fuel no tableNo varNo : ℕ} {subOid : Oid} {ix : Indexes} {objs : LuaObjects} {entry : LuaEntry}

/-! ### Reading a variable -/

/-- The functions `get_f` of a group change nothing. -/
def LuaGroup.Pure (g : LuaGroup σ) : Prop := ∀ path inst st, (g.getF path inst st).2 = st

theorem LuaGroup.Pure.getF_eq (h : g.Pure) (path inst : List ℕ) (st : σ) :
    ∃ r, g.getF path inst st = (r, st) :=
  ⟨_, Prod.ext rfl (h path inst st)⟩

/-- A variable has a value at an instance: one that is accessible and of the right type. -/
structure LuaGroup.Reads (g : LuaGroup σ) (t : LuaTarget) (st : σ) (val : LuaVal) (tag : UInt8)
    (errStat : Int32) : Prop where
  value : ∃ e : Option Int32, (g.getF t.path t.inst st).1 = some (val, e) ∧ e.getD 0 = errStat
  notNil : val ≠ .nil
  hasTag : t.var.tag = some tag
  access : t.var.access ≠ .una
  check : returnValueCheck val tag = true

theorem luaGet_state (hpure : g.Pure) (s : List ℕ) (st : σ) : (luaGet g s st).2 = st := by
  cases hgen : mibGroupIndexesGenerate g.objs with
  | none => simp only [luaGet, hgen]
  | some tab =>
    cases ht : getTarget g.objs tab s with
    | error tag => simp only [luaGet, hgen, ht]
    | ok t =>
      obtain ⟨_ | ⟨val, errStat⟩, hget⟩ := hpure.getF_eq t.path t.inst st
      · simp only [luaGet, hgen, ht, hget]
      · cases val <;> cases htag : t.var.tag <;> simp only [luaGet, hgen, ht, hget, htag]

theorem luaGet_of_reads (hpure : g.Pure) (hgen : mibGroupIndexesGenerate g.objs = some tab)
    (ht : getTarget g.objs tab s = .ok t) (hr : g.Reads t st val tag errStat) :
    luaGet g s st = (.ret errStat (toOid s) val tag, st) := by
  obtain ⟨e, hval, herr⟩ := hr.value
  have hget : g.getF t.path t.inst st = (some (val, e), st) :=
    Prod.ext hval (hpure t.path t.inst st)
  have hnil := hr.notNil
  simp only [luaGet, hgen, ht, hget, hr.hasTag]
  cases val with
  | nil => exact absurd rfl hnil
  | num n | str s | tab es => simp [valueReply, hr.check, herr]

/-! ### The loop of GETNEXT -/

/-- The search finds something in the first block, or goes on in the others. -/
theorem nextInBlocks_cons {bs : List Block} (h : nextInBlocks (b :: bs) x = .found blocks' oid) :
    (blocks' = b :: bs ∧ groupIndexTableGetnext x b = .found oid) ∨
      ∃ x', nextInBlocks bs x' = .found blocks' oid := by
  rw [nextInBlocks] at h
  cases hb : groupIndexTableGetnext x b with
  | found oid' =>
    simp only [hb, BlocksNext.found.injEq] at h
    obtain ⟨rfl, rfl⟩ := h
    exact .inl ⟨rfl, rfl⟩
  | nothing x' =>
    simp only [hb] at h
    exact .inr ⟨x', h⟩
  | raised => simp [hb] at h

/-- What the search finds, it finds in one of the blocks. -/
theorem nextInBlocks_found (h : nextInBlocks blocks x = .found blocks' oid) :
    blocks' ⊆ blocks ∧ ∃ b ∈ blocks, ∃ x', groupIndexTableGetnext x' b = .found oid := by
  induction blocks generalizing x with
  | nil => cases h
  | cons b bs ih =>
    rcases nextInBlocks_cons h with ⟨rfl, hfound⟩ | ⟨x', hrest⟩
    · exact ⟨List.Subset.refl _, b, mem_cons_self, x, hfound⟩
    · obtain ⟨hsub, b', hb', hfound⟩ := ih hrest
      exact ⟨subset_cons_of_subset b hsub, b', mem_cons_of_mem b hb', hfound⟩

/-- **A round of the loop**: the variable that was found has a value, or the loop goes on behind
it. -/
theorem getnextLoop_cases (hpure : g.Pure)
    (h : (getnextLoop g fuel blocks x st).1 = .ret errStat subOid val tag)
    (hvalid : asn1TagValid tag = true) :
    ∃ fuel' blocks' oid t, fuel = fuel' + 1 ∧ nextInBlocks blocks x = .found blocks' oid ∧
      nextTarget g.objs oid = some t ∧
      ((subOid = toOid oid ∧ g.Reads t st val tag errStat) ∨
        (getnextLoop g fuel' blocks' (skipColumn oid) st).1 = .ret errStat subOid val tag) := by
  cases fuel with
  | zero => cases h
  | succ fuel =>
    rw [getnextLoop] at h
    cases hnext : nextInBlocks blocks x with
    | raised => simp [hnext] at h
    | nothing =>
      simp only [hnext, Reply.ret.injEq] at h
      rw [← h.2.2.2] at hvalid
      cases hvalid
    | found blocks' oid =>
      simp only [hnext] at h
      cases ht : nextTarget g.objs oid with
      | none => simp [ht] at h
      | some t =>
        refine ⟨fuel, blocks', oid, t, rfl, rfl, ht, ?_⟩
        obtain ⟨_ | ⟨v, e⟩, hget⟩ := hpure.getF_eq t.path t.inst st
        · simp [ht, hget] at h
        · simp only [ht, hget] at h
          cases htag : t.var.tag with
          | none =>
            simp only [htag] at h
            exact .inr h
          | some tag' =>
            simp only [htag] at h
            by_cases hskip : v = .nil ∨ t.var.access = .una
            · rw [if_pos hskip] at h
              exact .inr h
            · obtain ⟨hnil, haccess⟩ := not_or.mp hskip
              rw [if_neg hskip, valueReply] at h
              by_cases hcheck : returnValueCheck v tag' = true
              · rw [if_pos hcheck, Reply.ret.injEq] at h
                obtain ⟨herr, rfl, rfl, rfl⟩ := h
                exact .inl ⟨rfl, ⟨e, by rw [hget], herr⟩, hnil, htag, haccess, hcheck⟩
              · simp [hcheck] at h

/-- **The loop as a whole.** What holds at its start and is kept by a round holds where the value is
found. -/
theorem getnextLoop_invariant (hpure : g.Pure) {P : List Block → List ℕ → Prop}
    (hstep : ∀ blocks x blocks' oid t, P blocks x → nextInBlocks blocks x = .found blocks' oid →
      nextTarget g.objs oid = some t → P blocks' (skipColumn oid)) (hP : P blocks x)
    (h : (getnextLoop g fuel blocks x st).1 = .ret errStat subOid val tag)
    (hvalid : asn1TagValid tag = true) :
    ∃ blocks x blocks' oid t, P blocks x ∧ nextInBlocks blocks x = .found blocks' oid ∧
      nextTarget g.objs oid = some t ∧ subOid = toOid oid ∧ g.Reads t st val tag errStat := by
  induction fuel generalizing blocks x with
  | zero => cases h
  | succ fuel ih =>
    obtain ⟨fuel', blocks', oid, t, hfuel, hnext, ht, ⟨hsub, hreads⟩ | hgo⟩ :=
      getnextLoop_cases hpure h hvalid
    · exact ⟨blocks, x, blocks', oid, t, hP, hnext, ht, hsub, hreads⟩
    · obtain rfl : fuel = fuel' := Nat.succ.inj hfuel
      exact ih (hstep blocks x blocks' oid t hP hnext ht) hgo

/-- The loop depends on the blocks by what is found in them. -/
theorem getnextLoop_congr (h : nextInBlocks blocks x = nextInBlocks blocks' x) (fuel : ℕ) (st : σ) :
    getnextLoop g fuel blocks x st = getnextLoop g fuel blocks' x st := by
  cases fuel with
  | zero => rfl
  | succ fuel => rw [getnextLoop, getnextLoop, h]

theorem getnextLoop_state (hpure : g.Pure) (fuel : ℕ) (blocks : List Block) (x : List ℕ) (st : σ) :
    (getnextLoop g fuel blocks x st).2 = st := by
  induction fuel generalizing blocks x with
  | zero => rfl
  | succ fuel ih =>
    cases hnext : nextInBlocks blocks x with
    | raised | nothing => simp only [getnextLoop, hnext]
    | found blocks' oid =>
      cases ht : nextTarget g.objs oid with
      | none => simp only [getnextLoop, hnext, ht]
      | some t =>
        obtain ⟨_ | ⟨val, e⟩, hget⟩ := hpure.getF_eq t.path t.inst st
        · simp only [getnextLoop, hnext, ht, hget]
        · cases htag : t.var.tag with
          | none => simp only [getnextLoop, hnext, ht, hget, htag, ih]
          | some tag =>
            by_cases hskip : val = .nil ∨ t.var.access = .una
            · simp only [getnextLoop, hnext, ht, hget, htag, hskip, if_true, ih]
            · simp only [getnextLoop, hnext, ht, hget, htag, hskip, if_false]

theorem luaGetnext_state (hpure : g.Pure) (s : List ℕ) (st : σ) : (luaGetnext g s st).2 = st := by
  cases hgen : mibGroupIndexesGenerate g.objs with
  | none => simp only [luaGetnext, hgen]
  | some tab => simp only [luaGetnext, hgen, getnextLoop_state hpure]

/-! ### Blocks and their instances -/

/-- The iterator stalls at an instance of a table. -/
def Indexes.Stalls : Indexes → List ℕ → Prop
  | .cascade dims, idx => SmithSnmp.Stalls dims idx
  | .keys _, _ => False

theorem Indexes.Stalls.ne_nil (h : ix.Stalls idx) : idx ≠ [] := by
  rintro rfl
  cases ix with
  | cascade dims => rcases dims with _ | ⟨d, _ | ⟨d', dims⟩⟩ <;> exact h
  | keys ks => exact h

theorem Indexes.Stalls.exists_dims (h : ix.Stalls idx) : ∃ d dims, ix = .cascade (d :: dims) := by
  cases ix with
  | cascade dims =>
    cases dims with
    | nil => exact h.elim
    | cons d dims => exact ⟨d, dims, rfl⟩
  | keys ks => exact h.elim

theorem constant_map_perm {f : List ℕ → List ℕ} (hf : ∀ d, (f d).Perm d) (dims : List (List ℕ))
    (idx : List ℕ) : Constant (dims.map f) idx ↔ Constant dims idx := by
  induction dims generalizing idx with
  | nil => rfl
  | cons d dims ih =>
    cases idx with
    | nil => rfl
    | cons a idx =>
      have hne : f d ≠ [] ↔ d ≠ [] := not_congr ⟨fun h => by simpa [h] using (hf d).symm,
        fun h => by simpa [h] using hf d⟩
      simp only [map_cons, Constant, ih, hne, (hf d).mem_iff]

/-- The order inside the dimensions does not matter. -/
theorem stalls_map_perm {f : List ℕ → List ℕ} (hf : ∀ d, (f d).Perm d) (dims : List (List ℕ))
    (idx : List ℕ) : Stalls (dims.map f) idx ↔ Stalls dims idx := by
  induction dims generalizing idx with
  | nil => rfl
  | cons d dims ih =>
    cases dims with
    | nil => simp [Stalls]
    | cons d' dims =>
      cases idx with
      | nil => rfl
      | cons a idx =>
        have ih' := ih idx
        have hconst := constant_map_perm hf (d' :: dims) idx
        rw [map_cons] at ih' hconst
        simp only [map_cons, Stalls, ih', hconst, (hf d).mem_iff, (hf d).count_eq]

/-- The dimensions of the rows of a table: there are none, or the iterator stays where it is just
where it stalls. -/
theorem indexDims_cases {dims : List (List Index)} (h : indexDims ix = some dims) :
    dims = [] ∨ ∃ nums last, dims = blockDims nums last ∧ (∀ d ∈ nums, d.Pairwise (· ≤ ·)) ∧
      ∀ (pre idx : List ℕ) {y : List ℕ}, y ≠ [] →
        (nextIndex last nums pre (idx ++ y) = .done (.found (pre ++ idx)) ↔ ix.Stalls idx) := by
  have hkeys : ∀ (ks : List IndexKey) (last : List Index), dims = [last] → ix = .keys ks →
      ∃ nums last, dims = blockDims nums last ∧ (∀ d ∈ nums, d.Pairwise (· ≤ ·)) ∧
        ∀ (pre idx : List ℕ) {y : List ℕ}, y ≠ [] →
          (nextIndex last nums pre (idx ++ y) = .done (.found (pre ++ idx)) ↔ ix.Stalls idx) := by
    rintro ks last rfl rfl
    exact ⟨[], last, rfl, by simp, fun pre idx _ hy =>
      iff_of_false (nextLast_not_found last pre idx hy) not_false⟩
  cases ix with
  | cascade ds =>
    rw [indexDims, Option.some.injEq] at h
    subst h
    rcases eq_nil_or_concat ds with rfl | ⟨init, l, rfl⟩
    · exact .inl rfl
    · set sort : List ℕ → List ℕ := List.insertionSort (· ≤ ·) with hsort
      have hsorted : ∀ d ∈ init.map sort ++ [sort l], d.Pairwise (· ≤ ·) := by
        intro d hd
        obtain ⟨d', -, rfl⟩ : ∃ d' ∈ init ++ [l], sort d' = d := by
          simpa [or_comm, eq_comm] using hd
        exact pairwise_insertionSort _ d'
      refine .inr ⟨init.map sort, (sort l).map .id, by simp [blockDims, hsort],
        fun d hd => hsorted d (by simp [hd]), fun pre idx _ hy => ?_⟩
      rw [nextIndex_stalls_iff hsorted pre idx hy, Indexes.Stalls,
        ← stalls_map_perm (perm_insertionSort (· ≤ ·)) (init.concat l)]
      simp [hsort]
  | keys ks =>
    rw [indexDims] at h
    split at h
    · exact .inr (hkeys ks _ (Option.some.inj h).symm rfl)
    · split at h
      · exact .inr (hkeys ks _ (Option.some.inj h).symm rfl)
      · cases h

/-- The dimensions of a block, the first one with its object numbers. -/
theorem BlockOf.eq_blockDims (h : BlockOf objs b) :
    ∃ nums last, b = blockDims (heads b :: nums) last ∧
      ∀ d ∈ heads b :: nums, d.Pairwise (· ≤ ·) := by
  cases h with
  | scalars nos hsort hobj =>
    refine ⟨[], [.id 0], by rw [heads_scalarIndexes]; rfl, ?_⟩
    simpa using hsort.imp Nat.le_of_lt
  | table tableNo entry b hobj hb =>
    rw [(heads_tableIndexes hb).1]
    obtain ⟨dims, hdims, rfl⟩ := tableIndexes_eq_some.mp hb
    rcases indexDims_cases hdims with rfl | ⟨nums, last, rfl, hsort, -⟩
    · exact ⟨[[1]], entry.cols.map .id, rfl, by simp⟩
    · refine ⟨[1] :: entry.cols :: nums, last, rfl, ?_⟩
      simpa [entry.cols_sorted] using hsort

theorem BlockOf.instance_of_found (h : BlockOf objs b)
    (hfound : groupIndexTableGetnext x b = .found oid) : IsInstance b oid := by
  obtain ⟨nums, last, hb, hsort⟩ := h.eq_blockDims
  rw [hb, groupIndexTableGetnext_eq hsort] at hfound
  cases hnext : nextIndex last (heads b :: nums) [] x with
  | exhausted => simp [hnext] at hfound
  | done r =>
    simp only [hnext] at hfound
    subst hfound
    obtain ⟨s, rfl, hs⟩ := nextIndex_instance hnext
    rw [hb]
    exact hs

/-- A block with smaller object numbers hands the OID on. -/
theorem BlockOf.nothing_of_lt (h : BlockOf objs b) (hlt : ∀ n ∈ heads b, n < no) (xs : List ℕ) :
    groupIndexTableGetnext (no :: xs) b = .nothing (no :: xs) := by
  obtain ⟨nums, last, hb, hsort⟩ := h.eq_blockDims
  rw [hb, groupIndexTableGetnext_eq hsort]
  have hnot : no ∉ heads b := fun hmem => lt_irrefl _ (hlt no hmem)
  have hfind : (heads b).find? (no < ·) = none := by
    rw [find?_eq_none]
    intro n hn
    simpa using (hlt n hn).le
  cases hheads : heads b with
  | nil => rfl
  | cons m d =>
    rw [hheads] at hnot hfind
    rw [nextIndex, if_neg hnot, hfind]

theorem nextInBlocks_append {l : List Block} (hof : ∀ b ∈ l, BlockOf objs b)
    (hlt : ∀ b ∈ l, ∀ n ∈ heads b, n < no) (xs : List ℕ) (blocks : List Block) :
    nextInBlocks (l ++ blocks) (no :: xs) = nextInBlocks blocks (no :: xs) := by
  induction l with
  | nil => rfl
  | cons b l ih =>
    obtain ⟨hb, hl⟩ := forall_mem_cons.mp hof
    obtain ⟨hltb, hltl⟩ := forall_mem_cons.mp hlt
    rw [cons_append, nextInBlocks, hb.nothing_of_lt hltb]
    exact ih hl hltl

theorem isInstance_scalarIndexes (h : IsInstance (scalarIndexes nos) s) :
    ∃ no ∈ nos, s = [no, 0] := by
  obtain ⟨e, he, rest, rfl, e', he', rest', rfl, rfl⟩ := h
  obtain ⟨no, hno, rfl⟩ := mem_map.mp he
  rw [mem_singleton.mp he']
  exact ⟨no, hno, rfl⟩

theorem isInstance_table {dims : List (List Index)}
    (h : IsInstance ([.id tableNo] :: [.id 1] :: entry.cols.map .id :: dims) s) :
    ∃ varNo inst, varNo ∈ entry.vars ∧ s = tableNo :: 1 :: varNo :: inst ∧
      IsInstance dims inst := by
  obtain ⟨e₁, he₁, r₁, rfl, e₂, he₂, r₂, rfl, e₃, he₃, r₃, rfl, hr⟩ := h
  rw [mem_singleton.mp he₁, mem_singleton.mp he₂]
  obtain ⟨varNo, hvar, rfl⟩ := mem_map.mp he₃
  exact ⟨varNo, r₃, LuaEntry.mem_cols.mp hvar, rfl, hr⟩

/-- The first number of an instance is an object number of the block. -/
theorem BlockOf.head_of_instance (h : BlockOf objs b) (hs : IsInstance b s) :
    ∃ no rest, s = no :: rest ∧ no ∈ heads b := by
  cases h with
  | scalars nos =>
    obtain ⟨no, hno, rfl⟩ := isInstance_scalarIndexes hs
    exact ⟨no, [0], rfl, by simpa using hno⟩
  | table tableNo entry b hobj hb =>
    rw [(heads_tableIndexes hb).1]
    obtain ⟨dims, -, rfl⟩ := tableIndexes_eq_some.mp hb
    obtain ⟨varNo, inst, -, rfl, -⟩ := isInstance_table hs
    exact ⟨tableNo, _, rfl, by simp⟩

/-! ### GET of what GETNEXT finds -/

theorem getTarget_of_instance (hgen : mibGroupIndexesGenerate objs = some tab) (hb : b ∈ tab)
    (hs : IsInstance b s) (ht : nextTarget objs s = some t) (haccess : t.var.access ≠ .una) :
    getTarget objs tab s = .ok t := by
  have hof := (mibGroupIndexesGenerate_spec hgen).1 b hb
  obtain ⟨no, rest, rfl, hno⟩ := hof.head_of_instance hs
  have heff := effectiveObjectIndex_of_mem hgen hb hno
  cases hof with
  | scalars nos hsort hobj =>
    obtain ⟨no', hno', heq⟩ := isInstance_scalarIndexes hs
    obtain ⟨rfl, rfl⟩ := List.cons.inj heq
    obtain ⟨v, hv⟩ := hobj no hno'
    simp only [nextTarget, hv, Option.some.injEq] at ht
    subst ht
    simp only [getTarget, heff, hv]
    have haccess' : v.access ≠ .una := haccess
    simp [scalarIndexes, haccess']
  | table tableNo entry b hobj hb' =>
    obtain ⟨dims, -, rfl⟩ := tableIndexes_eq_some.mp hb'
    obtain ⟨varNo, inst, -, heq, hinst⟩ := isInstance_table hs
    obtain ⟨rfl, rfl⟩ := List.cons.inj heq
    cases inst with
    | nil => simp [nextTarget] at ht
    | cons i inst =>
      cases dims with
      | nil => cases hinst
      | cons d dims =>
        simp only [nextTarget, hobj, Option.map_eq_some_iff] at ht
        obtain ⟨v, hv, rfl⟩ := ht
        have haccess' : v.access ≠ .una := haccess
        simp only [getTarget, heff, hobj, length_cons, hv]
        simp [haccess']

/-- **GET agrees with GETNEXT** in a group: what GETNEXT returns is an instance of the group, and GET
returns the same for it. -/
theorem luaGetnext_found (hpure : g.Pure) (h : (luaGetnext g x st).1 = .ret errStat subOid val tag)
    (hvalid : asn1TagValid tag = true) :
    ∃ tab b s t, mibGroupIndexesGenerate g.objs = some tab ∧ b ∈ tab ∧ IsInstance b s ∧
      nextTarget g.objs s = some t ∧ subOid = toOid s ∧ g.Reads t st val tag errStat ∧
      luaGet g s st = (.ret errStat subOid val tag, st) := by
  cases hgen : mibGroupIndexesGenerate g.objs with
  | none => simp [luaGetnext, hgen] at h
  | some tab =>
    have hof := (mibGroupIndexesGenerate_spec hgen).1
    simp only [luaGetnext, hgen] at h
    obtain ⟨blocks, x', blocks', s, t, hsub, hnext, ht, rfl, hreads⟩ :=
      getnextLoop_invariant hpure (P := fun blocks _ => blocks ⊆ tab)
        (fun blocks x blocks' oid t hsub hnext _ =>
          List.Subset.trans (nextInBlocks_found hnext).1 hsub)
        (List.Subset.refl tab) h hvalid
    obtain ⟨-, b, hmem, x'', hfound⟩ := nextInBlocks_found hnext
    have hb : b ∈ tab := hsub hmem
    have hinst := (hof b hb).instance_of_found hfound
    have htarget := getTarget_of_instance hgen hb hinst ht hreads.access
    exact ⟨tab, b, s, t, rfl, hb, hinst, ht, rfl, hreads, luaGet_of_reads hpure hgen htarget hreads⟩

/-! ### Where GETNEXT stays -/

/-- The numbers of a group are sub-identifiers. -/
def LuaGroup.SubIds (g : LuaGroup σ) : Prop :=
  ∀ tab, mibGroupIndexesGenerate g.objs = some tab →
    ∀ b ∈ tab, ∀ d ∈ b, ∀ e ∈ d, ∀ n ∈ Index.ids e, n < 2 ^ 32

theorem forall_mem_of_isInstance {p : ℕ → Prop} (h : ∀ d ∈ b, ∀ e ∈ d, ∀ n ∈ Index.ids e, p n)
    (hs : IsInstance b s) : ∀ n ∈ s, p n := by
  induction b generalizing s with
  | nil =>
    obtain rfl : s = [] := hs
    simp
  | cons d b ih =>
    obtain ⟨e, he, rest, rfl, hrest⟩ := hs
    obtain ⟨hd, hb⟩ := forall_mem_cons.mp h
    exact forall_mem_append.mpr ⟨hd e he, ih hb hrest⟩

theorem toNat_toOid (h : ∀ n ∈ s, n < 2 ^ 32) : (toOid s).map UInt32.toNat = s := by
  rw [toOid, map_map]
  refine (map_congr_left fun n hn => ?_).trans (map_id s)
  exact Nat.mod_eq_of_lt (h n hn)

theorem LuaGroup.SubIds.toOid_inj (hids : g.SubIds)
    (hgen : mibGroupIndexesGenerate g.objs = some tab) {b' : Block} (hb : b ∈ tab) (hb' : b' ∈ tab)
    {s' : List ℕ} (hs : IsInstance b s) (hs' : IsInstance b' s') (heq : toOid s = toOid s') :
    s = s' := by
  have hsmall := forall_mem_of_isInstance (hids tab hgen b hb) hs
  have hsmall' := forall_mem_of_isInstance (hids tab hgen b' hb') hs'
  rw [← toNat_toOid hsmall, heq, toNat_toOid hsmall']

/-- All object numbers of the blocks are greater than `no`. -/
def Above (objs : LuaObjects) (no : ℕ) (blocks : List Block) : Prop :=
  ∀ b ∈ blocks, BlockOf objs b ∧ ∀ n ∈ heads b, no < n

/-- What is found in such blocks has a greater object number. -/
theorem Above.found (h : Above objs no blocks) (hnext : nextInBlocks blocks x = .found blocks' oid) :
    (∃ b ∈ blocks, IsInstance b oid) ∧ ∃ n rest, oid = n :: rest ∧ no < n := by
  obtain ⟨-, b, hb, x', hfound⟩ := nextInBlocks_found hnext
  obtain ⟨hof, hlt⟩ := h b hb
  have hinst := hof.instance_of_found hfound
  obtain ⟨n, rest, rfl, hn⟩ := hof.head_of_instance hinst
  exact ⟨⟨b, hb, hinst⟩, n, rest, rfl, hlt n hn⟩

section Past

variable {g : LuaGroup σ} {b : Block} {r : List Block} {no : ℕ} {F Q : List ℕ → Prop}

/-- Where the loop is: in the block `b`, with a request that fulfils `F`, or behind it. -/
def Past (g : LuaGroup σ) (no : ℕ) (b : Block) (r : List Block) (F : List ℕ → Prop)
    (blocks : List Block) (x : List ℕ) : Prop :=
  (blocks = b :: r ∧ F x) ∨ (blocks ⊆ r ∧ Above g.objs no blocks)

theorem past_step (hof : BlockOf g.objs b) (hr : Above g.objs no r)
    (hstep : ∀ x oid t, F x → groupIndexTableGetnext x b = .found oid →
      nextTarget g.objs oid = some t → F (skipColumn oid) ∧ Q oid)
    (hgreater : ∀ n rest, no < n → Q (n :: rest)) (hP : Past g no b r F blocks x)
    (hnext : nextInBlocks blocks x = .found blocks' oid) (ht : nextTarget g.objs oid = some t) :
    Past g no b r F blocks' (skipColumn oid) ∧ Q oid ∧ ∃ b' ∈ b :: r, IsInstance b' oid := by
  have hlater : ∀ {bs : List Block} {x' : List ℕ}, bs ⊆ r →
      nextInBlocks bs x' = .found blocks' oid →
      Past g no b r F blocks' (skipColumn oid) ∧ Q oid ∧ ∃ b' ∈ b :: r, IsInstance b' oid := by
    intro bs x' hsub hnext'
    have habove : Above g.objs no bs := fun c hc => hr c (hsub hc)
    obtain ⟨⟨b', hb', hinst⟩, n, rest, rfl, hn⟩ := habove.found hnext'
    have hsub' := (nextInBlocks_found hnext').1
    exact ⟨.inr ⟨List.Subset.trans hsub' hsub, fun c hc => habove c (hsub' hc)⟩,
      hgreater n rest hn, b', mem_cons_of_mem b (hsub hb'), hinst⟩
  rcases hP with ⟨rfl, hF⟩ | ⟨hsub, -⟩
  · rcases nextInBlocks_cons hnext with ⟨rfl, hfound⟩ | ⟨x', hnext'⟩
    · obtain ⟨hF', hQ⟩ := hstep x oid t hF hfound ht
      exact ⟨.inl ⟨rfl, hF'⟩, hQ, b, mem_cons_self, hof.instance_of_found hfound⟩
    · exact hlater (List.Subset.refl r) hnext'
  · exact hlater hsub hnext

/-- What the loop finds in a block with the object number `no` and behind it. -/
theorem getnextLoop_past (hpure : g.Pure) (hof : BlockOf g.objs b) (hr : Above g.objs no r)
    (hstep : ∀ x oid t, F x → groupIndexTableGetnext x b = .found oid →
      nextTarget g.objs oid = some t → F (skipColumn oid) ∧ Q oid)
    (hgreater : ∀ n rest, no < n → Q (n :: rest)) (hP : Past g no b r F blocks x)
    (h : (getnextLoop g fuel blocks x st).1 = .ret errStat subOid val tag)
    (hvalid : asn1TagValid tag = true) :
    ∃ b' ∈ b :: r, ∃ oid, IsInstance b' oid ∧ subOid = toOid oid ∧ Q oid := by
  obtain ⟨blocks, x, blocks', oid, t, hP', hnext, ht, hsub, -⟩ :=
    getnextLoop_invariant hpure (P := Past g no b r F)
      (fun blocks x blocks' oid t hP hnext ht =>
        (past_step hof hr hstep hgreater hP hnext ht).1) hP h hvalid
  obtain ⟨-, hQ, b', hb', hinst⟩ := past_step hof hr hstep hgreater hP' hnext ht
  exact ⟨b', hb', oid, hinst, hsub, hQ⟩

end Past

/-- The search in a table for an OID that goes on with a column. -/
theorem groupIndexTableGetnext_table {nums : List (List ℕ)} {last : List Index}
    (hsort : ∀ d ∈ nums, d.Pairwise (· ≤ ·)) (xs oid : List ℕ) :
    groupIndexTableGetnext (tableNo :: 1 :: xs)
        ([.id tableNo] :: [.id 1] :: entry.cols.map .id :: blockDims nums last) = .found oid ↔
      nextIndex last (entry.cols :: nums) [tableNo, 1] xs = .done (.found oid) := by
  have hdims : [.id tableNo] :: [.id 1] :: entry.cols.map .id :: blockDims nums last =
      blockDims ([tableNo] :: [1] :: entry.cols :: nums) last := rfl
  have hsort' : ∀ d ∈ [tableNo] :: [1] :: entry.cols :: nums, d.Pairwise (· ≤ ·) := by
    simpa [entry.cols_sorted] using hsort
  rw [hdims, groupIndexTableGetnext_eq hsort', nextIndex_singleton, nextIndex_singleton]
  cases hnext : nextIndex last (entry.cols :: nums) ([] ++ [tableNo] ++ [1]) xs <;>
    simpa using congrArg (· = Sought.done (.found oid)) hnext.symm

/-- The search among the scalars never stays at one. -/
theorem lt_of_scalars (hsort : nos.Pairwise (· < ·)) {n : ℕ}
    (h : groupIndexTableGetnext (n :: 0 :: z) (scalarIndexes nos) = .found oid) :
    ∃ n', n < n' ∧ oid = [n', 0] := by
  have hdims : scalarIndexes nos = blockDims [nos] [.id 0] := rfl
  have hsorted : ∀ d ∈ [nos], d.Pairwise (· ≤ ·) := by simpa using hsort.imp Nat.le_of_lt
  rw [hdims, groupIndexTableGetnext_eq hsorted] at h
  cases hnext : nextIndex [.id 0] [nos] [] (n :: 0 :: z) with
  | exhausted => simp [hnext] at h
  | done r =>
    simp only [hnext] at h
    subst h
    have hdown : ∀ n', descend [n'] (blockDims [] [.id 0]) = .found [n', 0] := fun _ => rfl
    obtain ⟨-, hlast⟩ | ⟨n', hfound, hn'⟩ := nextIndex_found_cons hnext
    · cases hlast
    · rw [nil_append, hdown, IndexNext.found.injEq] at hfound
      refine ⟨n', ?_, hfound.symm⟩
      rcases hn' with ⟨-, -, hget⟩ | ⟨-, -, hlt⟩
      · exact rel_of_getElem?_idxOf hsort hget
      · exact hlt

/-- The search in a table goes on with the columns in order. -/
theorem le_of_table {c : ℕ} (hb : tableIndexes tableNo entry = some b)
    (h : groupIndexTableGetnext (tableNo :: 1 :: c :: z) b = .found oid)
    (hobj : objs.lookup tableNo = some (.table entry)) (ht : nextTarget objs oid = some t) :
    ∃ n i inst, oid = tableNo :: 1 :: n :: i :: inst ∧ c ≤ n := by
  have hinst := (BlockOf.table tableNo entry b hobj hb).instance_of_found h
  obtain ⟨dims, hdims, rfl⟩ := tableIndexes_eq_some.mp hb
  obtain ⟨n, inst, -, rfl, hrow⟩ := isInstance_table hinst
  cases inst with
  | nil => simp [nextTarget] at ht
  | cons i inst =>
    rcases indexDims_cases hdims with rfl | ⟨nums, last, rfl, hsort, -⟩
    · cases hrow
    · obtain ⟨n', s, heq, hle⟩ := nextIndex_le entry.cols_sorted
        ((groupIndexTableGetnext_table hsort _ _).mp h)
      obtain ⟨rfl, -⟩ : n = n' ∧ i :: inst = s := by simpa using heq
      exact ⟨n, i, inst, rfl, hle⟩

section Blocks

variable {g : LuaGroup σ} {r : List Block} {no fuel : ℕ} {st : σ} {errStat : Int32} {subOid : Oid}
  {val : LuaVal} {tag : UInt8}

/-- From a scalar the loop only goes on to greater numbers. -/
theorem getnextLoop_scalars (hpure : g.Pure) (hof : BlockOf g.objs (scalarIndexes nos))
    (hsort : nos.Pairwise (· < ·)) (hr : Above g.objs no r)
    (h : (getnextLoop g fuel (scalarIndexes nos :: r) (no :: 0 :: y) st).1 =
      .ret errStat subOid val tag) (hvalid : asn1TagValid tag = true) :
    ∃ b ∈ scalarIndexes nos :: r, ∃ oid, IsInstance b oid ∧ subOid = toOid oid ∧
      ∀ z, oid ≠ no :: z :=
  getnextLoop_past hpure hof hr (F := fun x => ∃ n z, x = n :: 0 :: z ∧ no ≤ n)
    (by
      rintro _ oid t ⟨n, z, rfl, hle⟩ hfound -
      obtain ⟨n', hlt, rfl⟩ := lt_of_scalars hsort hfound
      refine ⟨⟨n', [], rfl, (hle.trans_lt hlt).le⟩, fun z heq => ?_⟩
      exact absurd (List.cons.inj heq).1 (hle.trans_lt hlt).ne')
    (fun n rest hlt z heq => absurd (List.cons.inj heq).1 hlt.ne')
    (.inl ⟨rfl, no, y, rfl, le_rfl⟩) h hvalid

/-- Beyond a column of a table the loop only goes on to greater columns and numbers. -/
theorem getnextLoop_columns (hpure : g.Pure) (hobj : g.objs.lookup no = some (.table entry))
    (hb : tableIndexes no entry = some b) (hr : Above g.objs no r)
    (hP : Past g no b r (fun x => ∃ c z, x = no :: 1 :: c :: z ∧ varNo < c) blocks x)
    (h : (getnextLoop g fuel blocks x st).1 = .ret errStat subOid val tag)
    (hvalid : asn1TagValid tag = true) :
    ∃ b' ∈ b :: r, ∃ oid, IsInstance b' oid ∧ subOid = toOid oid ∧
      ∀ z, oid ≠ no :: 1 :: varNo :: z :=
  getnextLoop_past hpure (.table no entry b hobj hb) hr
    (by
      rintro _ oid t ⟨c, z, rfl, hlt⟩ hfound ht
      obtain ⟨n, i, inst, rfl, hle⟩ := le_of_table hb hfound hobj ht
      refine ⟨⟨n + 1, 0 :: inst, rfl, Nat.lt_succ_of_le (hlt.le.trans hle)⟩, fun z heq => ?_⟩
      obtain ⟨rfl, -⟩ : n = varNo ∧ i :: inst = z := by simpa using heq
      exact absurd (hlt.trans_le hle) (lt_irrefl _))
    (fun n rest hlt z heq => absurd (List.cons.inj heq).1 hlt.ne') hP h hvalid

/-- From an instance of a table the loop goes on to others, unless the search in the table stays at
it. -/
theorem getnextLoop_table (hpure : g.Pure) (hobj : g.objs.lookup no = some (.table entry))
    (hb : tableIndexes no entry = some b) (hr : Above g.objs no r)
    (h : (getnextLoop g fuel (b :: r) (no :: 1 :: varNo :: z) st).1 = .ret errStat subOid val tag)
    (hvalid : asn1TagValid tag = true) :
    ∃ b' ∈ b :: r, ∃ oid, IsInstance b' oid ∧ subOid = toOid oid ∧
      ((∀ z', oid ≠ no :: 1 :: varNo :: z') ∨
        groupIndexTableGetnext (no :: 1 :: varNo :: z) b = .found oid ∧
          (nextTarget g.objs oid).isSome = true) := by
  have hof : BlockOf g.objs b := .table no entry b hobj hb
  obtain ⟨fuel', blocks', oid, t, -, hnext, ht, ⟨heq, -⟩ | hgo⟩ := getnextLoop_cases hpure h hvalid
  · -- the first round gives the answer
    rcases nextInBlocks_cons hnext with ⟨rfl, hfound⟩ | ⟨x', hnext'⟩
    · exact ⟨b, mem_cons_self, oid, hof.instance_of_found hfound, heq,
        .inr ⟨hfound, by rw [ht]; rfl⟩⟩
    · obtain ⟨⟨b', hb', hinst⟩, n, rest, rfl, hn⟩ := hr.found hnext'
      exact ⟨b', mem_cons_of_mem b hb', _, hinst, heq,
        .inl fun z' hz => absurd (List.cons.inj hz).1 hn.ne'⟩
  · have hP : Past g no b r (fun x => ∃ c z, x = no :: 1 :: c :: z ∧ varNo < c) blocks'
        (skipColumn oid) := by
      rcases nextInBlocks_cons hnext with ⟨rfl, hfound⟩ | ⟨x', hnext'⟩
      · obtain ⟨n, i, inst, rfl, hle⟩ := le_of_table hb hfound hobj ht
        exact .inl ⟨rfl, n + 1, 0 :: inst, rfl, Nat.lt_succ_of_le hle⟩
      · have hsub := (nextInBlocks_found hnext').1
        exact .inr ⟨hsub, fun c hc => hr c (hsub hc)⟩
    obtain ⟨b', hb', oid', hinst, heq, hne⟩ :=
      getnextLoop_columns hpure hobj hb hr hP hgo hvalid
    exact ⟨b', hb', oid', hinst, heq, .inl hne⟩

end Blocks

/-- The search in a table stays at an instance of it only where the iterator stalls. -/
theorem stalls_of_table (hb : tableIndexes tableNo entry = some b)
    (hs : IsInstance b (tableNo :: 1 :: varNo :: idx)) (hy : y ≠ [])
    (hfound : groupIndexTableGetnext (tableNo :: 1 :: varNo :: (idx ++ y)) b =
      .found (tableNo :: 1 :: varNo :: idx))
    (ht : (nextTarget objs (tableNo :: 1 :: varNo :: idx)).isSome = true) :
    entry.indexes.Stalls idx := by
  obtain ⟨dims, hdims, rfl⟩ := tableIndexes_eq_some.mp hb
  obtain ⟨varNo', idx', hvar, heq, hrow⟩ := isInstance_table hs
  obtain ⟨rfl, rfl⟩ : varNo = varNo' ∧ idx = idx' := by simpa using heq
  rcases indexDims_cases hdims with rfl | ⟨nums, last, rfl, hsort, hstalls⟩
  · obtain rfl : idx = [] := hrow
    simp [nextTarget] at ht
  · have hcol := (groupIndexTableGetnext_table hsort _ _).mp hfound
    exact (hstalls [tableNo, 1, varNo] idx hy).mp
      ((nextIndex_kept_iff entry.cols_nodup (LuaEntry.mem_cols.mpr hvar)).mp hcol)

/-- **Where GETNEXT stays**: it returns an instance that the request goes beyond only where the
iterator stalls. -/
theorem stalls_of_luaGetnext (hpure : g.Pure) (hids : g.SubIds)
    (hgen : mibGroupIndexesGenerate g.objs = some tab) (hb : b ∈ tab) (hs : IsInstance b s)
    (hy : y ≠ []) (h : (luaGetnext g (s ++ y) st).1 = .ret errStat (toOid s) val tag)
    (hvalid : asn1TagValid tag = true) :
    ∃ tableNo entry varNo idx, s = tableNo :: 1 :: varNo :: idx ∧
      g.objs.lookup tableNo = some (.table entry) ∧ entry.indexes.Stalls idx := by
  have hof := (mibGroupIndexesGenerate_spec hgen).1
  obtain ⟨no, rest, hsplit, hno⟩ := (hof b hb).head_of_instance hs
  obtain ⟨l, r, htab, hl, hr⟩ := generate_ascending hgen hb hno
  have hsame : ∀ {b' : Block} {oid : List ℕ}, b' ∈ b :: r → IsInstance b' oid →
      toOid s = toOid oid → s = oid := fun hb' hinst =>
    hids.toOid_inj hgen hb (htab ▸ mem_append_right l hb') hs hinst
  have habove : Above g.objs no r := fun b' hb' => ⟨hof b' (by simp [htab, hb']), hr b' hb'⟩
  -- the blocks before that of the instance have nothing for the request
  have hskip : nextInBlocks tab (s ++ y) = nextInBlocks (b :: r) (s ++ y) := by
    rw [htab, hsplit, cons_append]
    exact nextInBlocks_append (fun b' hb' => hof b' (by simp [htab, hb'])) hl _ _
  simp only [luaGetnext, hgen] at h
  rw [getnextLoop_congr hskip] at h
  cases hof b hb with
  | scalars nos hsort hobj =>
    obtain ⟨no', -, rfl⟩ := isInstance_scalarIndexes hs
    obtain ⟨rfl, -⟩ := List.cons.inj hsplit
    obtain ⟨b', hb', oid, hinst, heq, hne⟩ :=
      getnextLoop_scalars hpure (hof _ hb) hsort habove h hvalid
    exact absurd (hsame hb' hinst heq).symm (hne [0])
  | table tableNo entry _ hobj hb' =>
    obtain rfl : no = tableNo := by simpa [(heads_tableIndexes hb').1] using hno
    obtain ⟨dims, -, hbeq⟩ := tableIndexes_eq_some.mp hb'
    obtain ⟨varNo, idx, -, rfl, -⟩ := isInstance_table (hbeq ▸ hs)
    obtain ⟨c, hc, oid, hinst, heq, hround⟩ :=
      getnextLoop_table hpure hobj hb' habove h hvalid
    obtain rfl := hsame hc hinst heq
    rcases hround with hne | ⟨hfound, ht⟩
    · exact absurd rfl (hne idx)
    · exact ⟨no, entry, varNo, idx, rfl, hobj, stalls_of_table hb' hs hy hfound ht⟩

theorem luaGetnext_of_stalls (hpure : g.Pure) (hgen : mibGroupIndexesGenerate g.objs = some tab)
    {v : LuaVariable} (hobj : g.objs.lookup tableNo = some (.table entry))
    (hvar : entry.vars.lookup varNo = some v) (hstalls : entry.indexes.Stalls idx) (hy : y ≠ [])
    (hreads : g.Reads ⟨v, [tableNo, 1, varNo], idx⟩ st val tag errStat) :
    luaGetnext g (tableNo :: 1 :: varNo :: (idx ++ y)) st =
        (.ret errStat (toOid (tableNo :: 1 :: varNo :: idx)) val tag, st) ∧
      ∃ b ∈ tab, IsInstance b (tableNo :: 1 :: varNo :: idx) := by
  have hof := (mibGroupIndexesGenerate_spec hgen).1
  have hmem : tableNo ∈ g.objs := AList.lookup_isSome.mp (by rw [hobj]; rfl)
  have hcol : varNo ∈ entry.cols :=
    LuaEntry.mem_cols.mpr (AList.lookup_isSome.mp (by rw [hvar]; rfl))
  obtain ⟨b, hb, hno⟩ := exists_block hgen hmem
  obtain ⟨l, r, htab, hl, -⟩ := generate_ascending hgen hb hno
  -- the iterator stays at the instance, in the block of its table
  have hfound : groupIndexTableGetnext (tableNo :: 1 :: varNo :: (idx ++ y)) b =
      .found (tableNo :: 1 :: varNo :: idx) := by
    cases hof b hb with
    | scalars nos hsort hscalar =>
      obtain ⟨v', hv'⟩ := hscalar tableNo (by simpa using hno)
      rw [hobj] at hv'
      cases hv'
    | table tableNo' entry' _ hobj' hb' =>
      obtain rfl : tableNo = tableNo' := by simpa [(heads_tableIndexes hb').1] using hno
      obtain rfl : entry = entry' := by simpa using hobj.symm.trans hobj'
      obtain ⟨dims, hdims, rfl⟩ := tableIndexes_eq_some.mp hb'
      rcases indexDims_cases hdims with rfl | ⟨nums, last, rfl, hsort, hiff⟩
      · obtain ⟨d, d', hlen⟩ := hstalls.exists_dims
        simp [hlen, indexDims] at hdims
      · rw [groupIndexTableGetnext_table hsort]
        exact (nextIndex_kept_iff entry.cols_nodup hcol).mpr
          ((hiff [tableNo, 1, varNo] idx hy).mpr hstalls)
  have hnext : nextInBlocks tab (tableNo :: 1 :: varNo :: (idx ++ y)) =
      .found (b :: r) (tableNo :: 1 :: varNo :: idx) := by
    rw [htab, nextInBlocks_append (fun b' hb' => hof b' (by simp [htab, hb'])) hl, nextInBlocks,
      hfound]
  have htarget : nextTarget g.objs (tableNo :: 1 :: varNo :: idx) =
      some ⟨v, [tableNo, 1, varNo], idx⟩ := by
    cases idx with
    | nil => exact absurd rfl hstalls.ne_nil
    | cons i idx => simp [nextTarget, hobj, hvar]
  -- the value that is read there ends the loop
  obtain ⟨e, hval, herr⟩ := hreads.value
  have hget : g.getF [tableNo, 1, varNo] idx st = (some (val, e), st) :=
    Prod.ext hval (hpure _ _ st)
  have hkeep : ¬ (val = .nil ∨ v.access = .una) := not_or.mpr ⟨hreads.notNil, hreads.access⟩
  have htag : v.tag = some tag := hreads.hasTag
  refine ⟨?_, b, hb, (hof b hb).instance_of_found hfound⟩
  simp only [luaGetnext, hgen, getnextLoop, hnext, htarget, hget, htag, hkeep, if_false, valueReply,
    hreads.check, if_true, herr]

end SmithSnmp
