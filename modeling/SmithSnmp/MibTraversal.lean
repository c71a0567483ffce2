import SmithSnmp.MibPaths

/-!
# What the GETNEXT Traversal Does

The explicit stack of `mib_tree_search_next` is bookkeeping: the traversal asks the
handlers of the registered instance nodes, in the order of their paths, until one of them
answers in the view. This module states that as a list of queries and shows that the loop
refines it.

* `queries`: the handler calls that a search for what follows an OID is to make.
* `runQueries`: the calls one after the other, up to the first acceptable answer.
* `SearchState.pending`: the queries that a state of the loop has still to make.

## Main results

* `searchLoop_eq_runQueries`: the loop makes the pending queries, and its number of
  rounds is bounded by `SearchState.rounds`.
-/

namespace SmithSnmp

open List Lib Option

variable {t : Oid} {x : UInt32} {subs l r : List (UInt32 × MibNode)} {st : SearchState}
  {s : UInt32 × MibNode} {i : ℕ}

/-! ### Queries -/

/-- A GETNEXT call of a handler: the path of its instance node and the instance part of
the OID asked for. -/
structure Query where
  path : Oid
  callback : Int
  /-- instance part of the OID, empty to ask for the first instance -/
  suffix : Oid
deriving DecidableEq, Repr

/-- The query that finds what follows `t` at the instance node of relative path `r.1`,
below the node at `p`, if it can have something. -/
def query (p t : Oid) (r : Oid × Int) : Option Query :=
  if r.1 <+: t then some ⟨p ++ r.1, r.2, t.drop r.1.length⟩
  else if t < r.1 then some ⟨p ++ r.1, r.2, []⟩
  else none

/-- The queries that find what follows `t` at the instance nodes `rs` below `p`. -/
def queries (p t : Oid) (rs : List (Oid × Int)) : List Query := rs.filterMap (query p t)

@[simp] theorem queries_append (p t : Oid) (l r : List (Oid × Int)) :
    queries p t (l ++ r) = queries p t l ++ queries p t r := by
  simp [queries]

/-- Searching for what follows `x :: t` below an entry `x` is searching for what follows
`t` below its node. -/
theorem queries_registeredSub_same (p t : Oid) (x : UInt32) (node : MibNode) :
    queries p (x :: t) (registeredSub (x, node)) = queries (p ++ [x]) t (registered node) := by
  simp only [queries, registeredSub, filterMap_map]
  refine filterMap_congr fun r _ => ?_
  simp [query]

/-- Nothing below an entry smaller than `x` follows `x :: t`. -/
theorem queries_registeredSubs_lt {p : Oid} (h : ∀ s ∈ subs, s.1 < x) :
    queries p (x :: t) (registeredSubs subs) = [] := by
  rw [queries, filterMap_eq_nil_iff]
  rintro ⟨q, callback⟩ hq
  obtain ⟨y, n, q', hs, rfl, -⟩ := mem_registeredSubs_iff.mp hq
  have hy : y < x := h _ hs
  have hlt : y :: q' < x :: t := cons_lt_cons_iff.mpr (.inl hy)
  simp [query, hy.ne, hlt.le]

/-- Everything below an entry greater than `x` follows `x :: t`. -/
theorem queries_registeredSubs_gt {p : Oid} (h : ∀ s ∈ subs, x < s.1) :
    queries p (x :: t) (registeredSubs subs) = queries p [] (registeredSubs subs) := by
  refine filterMap_congr ?_
  rintro ⟨q, callback⟩ hq
  obtain ⟨y, n, q', hs, rfl, -⟩ := mem_registeredSubs_iff.mp hq
  have hy : x < y := h _ hs
  have hlt : x :: t < y :: q' := cons_lt_cons_iff.mpr (.inl hy)
  simp [query, hy.ne', hlt]

/-- The first instances below an entry, which is searching at its node. -/
theorem queries_registeredSub_nil (p : Oid) (x : UInt32) (node : MibNode) :
    queries p [] (registeredSub (x, node)) = queries (p ++ [x]) [] (registered node) := by
  simp only [queries, registeredSub, filterMap_map]
  refine filterMap_congr fun r _ => ?_
  by_cases hr : r.1 = []
  · simp [query, hr]
  · simp [query, hr, nil_lt_iff]

/-- The queries in order, up to the first answer that is comparable with the view. -/
def runQueries {σ : Type} (h : Handlers σ) (view orig : Oid) :
    List Query → OidSearchRes → AgentM σ OidSearchRes
  | [], ret => pure (endOfMibView orig ret)
  | q :: qs, ret => do
      let ret ← mibInstanceSearch h q.path
        { ret with instId := q.suffix, callback := q.callback }
      if asn1TagValid ret.var.tag then
        let ret := { ret with oid := q.path ++ ret.instId }
        if asn1OidMaxLen < ret.oid.length then Traced.abort
        else if oidCover view ret.oid = 0 then runQueries h view orig qs ret
        else pure ret
      else runQueries h view orig qs ret

/-! ### The states of the loop -/

/-- The queries at a backlogged node, from its sub-node `nIdx` on. -/
def entryQueries (p : Oid) : Option MibNode × ℕ → List Query
  | (none, _) => []
  | (some (.inst callback), _) => [⟨p, callback, []⟩]
  | (some (.group subs), nIdx) => queries p [] (registeredSubs (subs.drop nIdx))

/-- The queries at the backlogged nodes; `p` is the path of the topmost one. -/
def stackQueries (p : Oid) : List (Option MibNode × ℕ) → List Query
  | [] => []
  | e :: stack => entryQueries p e ++ stackQueries p.dropLast stack

/-- The queries at the current node. -/
def SearchState.current (st : SearchState) : List Query :=
  if st.immediate then entryQueries st.path (st.node, st.pNbl.getD 0)
  else match st.node with
    | none => []
    | some node => queries st.path st.rest (registered node)

/-- The queries that are still to be made. -/
def SearchState.pending (st : SearchState) : List Query :=
  st.current ++ stackQueries st.path.dropLast st.stack

/-- The rounds that a backlogged node can still take. -/
def entryRounds : Option MibNode × ℕ → ℕ
  | (none, _) => 1
  | (some (.inst _), _) => 1
  | (some (.group subs), nIdx) => subsRounds (subs.drop nIdx) + 3

/-- The rounds that the loop can still take. -/
def SearchState.rounds (st : SearchState) : ℕ :=
  entryRounds (st.node, st.pNbl.getD 0) + (if st.immediate then 0 else 1) +
    (st.stack.map entryRounds).sum

/-- What holds while the loop follows the given OID: nothing has been backlogged as
current, the current node is well-formed, and at a group there is a sub-identifier
left. -/
def SearchState.Following (st : SearchState) : Prop :=
  st.immediate = false → st.pNbl = none ∧
    ∀ node, st.node = some node → (∃ d, node.Wf d) ∧ (node.isGroup = true → st.rest ≠ [])

theorem SearchState.Following.of_immediate (h : st.immediate = true) :
    st.Following := fun hf => by simp [h] at hf

@[simp] theorem subsRounds_append (l r : List (UInt32 × MibNode)) :
    subsRounds (l ++ r) = subsRounds l + subsRounds r := by
  induction l with
  | nil => simp [subsRounds]
  | cons s l ih => simp [subsRounds, ih, Nat.add_assoc]

theorem entryRounds_pos (e : Option MibNode × ℕ) : 0 < entryRounds e := by
  rcases e with ⟨_ | _ | _, n⟩ <;> simp [entryRounds]

/-- A node from its first sub-node on. -/
theorem entryRounds_node (node : MibNode) : entryRounds (some node, 0) = nodeRounds node := by
  cases node <;> simp [entryRounds, nodeRounds]

theorem entryQueries_node (p : Oid) (node : MibNode) :
    entryQueries p (some node, 0) = queries p [] (registered node) := by
  cases node <;> simp [entryQueries, registered, queries, query]

/-! ### Backtracking and descending -/

theorem SearchState.backtrack_spec (st : SearchState) :
    (st.backtrack = none ∧ stackQueries st.path.dropLast st.stack = []) ∨
    ∃ st', st.backtrack = some st' ∧
      st'.pending = stackQueries st.path.dropLast st.stack ∧
      st'.rounds = (st.stack.map entryRounds).sum ∧ st'.Following := by
  unfold SearchState.backtrack
  rcases hst : st.stack with _ | ⟨⟨node, nIdx⟩, stack⟩
  · exact .inl ⟨rfl, rfl⟩
  · refine .inr ⟨_, rfl, ?_, ?_, .of_immediate rfl⟩
    · simp [pending, current, stackQueries]
    · simp [rounds]

/-- The group is backlogged if there is an entry behind the one that is descended to. -/
theorem SearchState.descend_stack_cons (st : SearchState) (l r : List (UInt32 × MibNode))
    (s t : UInt32 × MibNode) :
    (st.descend (l ++ s :: t :: r) l.length).stack =
      (some (.group (l ++ s :: t :: r)), l.length + 1) :: st.stack := by
  have hlen : ¬ (l ++ s :: t :: r).length ≤ l.length + 1 := by simp
  rw [descend, if_neg hlen]

/-- Descending to an entry of a group leaves the entries behind it to the stack. -/
theorem SearchState.descend_stack :
    stackQueries (st.descend (l ++ s :: r) l.length).path.dropLast
        (st.descend (l ++ s :: r) l.length).stack =
      queries st.path [] (registeredSubs r) ++ stackQueries st.path.dropLast st.stack := by
  cases r with
  | nil => simp [descend, stackQueries, entryQueries, queries, registeredSubs]
  | cons t r =>
    rw [descend_stack_cons]
    simp only [descend, stackQueries, dropLast_concat, entryQueries,
      drop_length_add_append, drop_succ_cons, drop_zero]

theorem SearchState.descend_rounds (st : SearchState) (l r : List (UInt32 × MibNode))
    (s : UInt32 × MibNode) :
    ((st.descend (l ++ s :: r) l.length).stack.map entryRounds).sum ≤
      subsRounds r + 3 + (st.stack.map entryRounds).sum := by
  cases r with
  | nil => simp [descend, entryRounds, subsRounds]
  | cons t r =>
    simp only [descend_stack_cons, map_cons, sum_cons, entryRounds,
      drop_length_add_append, drop_succ_cons, drop_zero]
    omega

@[simp] theorem SearchState.descend_node : (st.descend (l ++ s :: r) l.length).node = some s.2 := by
  simp [descend]

@[simp] theorem SearchState.descend_path :
    (st.descend (l ++ s :: r) l.length).path = st.path ++ [s.1] := by
  simp [descend]

@[simp] theorem SearchState.descend_immediate : (st.descend subs i).immediate = st.immediate := rfl

@[simp] theorem SearchState.descend_rest : (st.descend subs i).rest = st.rest := rfl

@[simp] theorem SearchState.descend_pNbl : (st.descend subs i).pNbl = st.pNbl := rfl

/-- The rounds of an entry count towards those of its group. -/
theorem subsRounds_split (l r : List (UInt32 × MibNode)) (s : UInt32 × MibNode) :
    subsRounds (l ++ s :: r) = subsRounds l + (nodeRounds s.2 + 1) + subsRounds r := by
  obtain ⟨x, node⟩ := s
  simp only [subsRounds_append, subsRounds, subRounds]
  omega

/-- **Descending in the immediate mode** makes the queries at the entry and behind it. -/
theorem SearchState.descend_immediate_spec (st : SearchState) (l r : List (UInt32 × MibNode))
    (s : UInt32 × MibNode) (him : st.immediate = true) (hp : st.pNbl = none) :
    (st.descend (l ++ s :: r) l.length).pending =
        queries st.path [] (registeredSubs (s :: r)) ++
          stackQueries st.path.dropLast st.stack ∧
      (st.descend (l ++ s :: r) l.length).rounds ≤
        subsRounds (s :: r) + 2 + (st.stack.map entryRounds).sum := by
  obtain ⟨x, node⟩ := s
  constructor
  · rw [pending, descend_stack, current, descend_immediate, if_pos him, descend_node,
      descend_pNbl, hp, getD_none, entryQueries_node, descend_path, registeredSubs,
      queries_append, queries_registeredSub_nil, append_assoc]
  · have hstack := descend_rounds st l r (x, node)
    have hsplit := subsRounds_split [] r (x, node)
    simp only [nil_append, subsRounds] at hsplit
    rw [rounds, descend_node, descend_pNbl, hp, getD_none, entryRounds_node,
      descend_immediate, if_pos him]
    simp only [subsRounds]
    omega

/-- **Descending along the given OID** makes the queries that follow it at the entry, and
all behind it. -/
theorem SearchState.descend_following_spec (st : SearchState) (l r : List (UInt32 × MibNode))
    (s : UInt32 × MibNode) (him : st.immediate = false) (hp : st.pNbl = none) :
    (st.descend (l ++ s :: r) l.length).pending =
        queries (st.path ++ [s.1]) st.rest (registered s.2) ++
          (queries st.path [] (registeredSubs r) ++ stackQueries st.path.dropLast st.stack) ∧
      (st.descend (l ++ s :: r) l.length).rounds ≤
        subsRounds (l ++ s :: r) + 3 + (st.stack.map entryRounds).sum := by
  constructor
  · rw [pending, descend_stack, current, descend_immediate, him, if_neg Bool.false_ne_true,
      descend_node, descend_path, descend_rest]
  · have hstack := descend_rounds st l r s
    have hsplit := subsRounds_split l r s
    rw [rounds, descend_node, descend_pNbl, hp, getD_none, entryRounds_node,
      descend_immediate, him, if_neg Bool.false_ne_true]
    omega

/-- When the OID is used up at a group, following it is the immediate mode. -/
theorem SearchState.pending_of_rest_nil (st : SearchState) (him : st.immediate = false)
    (hp : st.pNbl = none) (hr : st.rest = []) (hn : st.node.isSome = true) :
    { st with immediate := true }.pending = st.pending := by
  obtain ⟨node, hnode⟩ := isSome_iff_exists.mp hn
  simp only [pending, current, him, if_true, Bool.false_eq_true, if_false, hp, hr, hnode,
    getD_none, entryQueries_node]

/-- A round at a group makes progress: it keeps the pending queries, or finds that there
are none at the group. -/
def SearchState.Progress (st : SearchState) (subs : List (UInt32 × MibNode)) : Prop :=
  (st.groupRound subs = none ∧ st.current = []) ∨
    ∃ st', st.groupRound subs = some st' ∧ st'.pending = st.pending ∧
      st'.rounds < st.rounds ∧ st'.Following

theorem SearchState.progress_immediate (him : st.immediate = true)
    (hnode : st.node = some (.group subs)) : st.Progress subs := by
  refine .inr ⟨_, by rw [groupRound, if_pos him], ?_⟩
  set st₀ : SearchState := { st with pNbl := none } with hst₀
  have hcur : st.pending = queries st.path [] (registeredSubs (subs.drop (st.pNbl.getD 0))) ++
      stackQueries st.path.dropLast st.stack := by
    rw [pending, current, if_pos him, hnode]
    rfl
  have hrounds : st.rounds = subsRounds (subs.drop (st.pNbl.getD 0)) + 3 +
      (st.stack.map entryRounds).sum := by
    rw [rounds, if_pos him, hnode]
    rfl
  rcases hdrop : subs.drop (st.pNbl.getD 0) with _ | ⟨s, r⟩
  · -- a group without sub-nodes: the round ends at a missing node
    have hlen : subs.length ≤ st.pNbl.getD 0 := drop_eq_nil_iff.mp hdrop
    have hget : subs[st.pNbl.getD 0]? = none := getElem?_eq_none hlen
    have hlen' : subs.length ≤ st.pNbl.getD 0 + 1 := by omega
    rw [hdrop] at hcur hrounds
    refine ⟨?_, ?_, .of_immediate him⟩
    · rw [hcur]
      simp [pending, current, descend, hget, hlen', st₀, him, entryQueries, stackQueries,
        registeredSubs, queries]
    · rw [hrounds]
      simp only [rounds, descend, hget, hlen', st₀, him, entryRounds, subsRounds, if_true,
        map_none, map_cons, sum_cons]
      omega
  · have hlt : st.pNbl.getD 0 < subs.length := by
      by_contra hge
      rw [drop_of_length_le (not_lt.mp hge)] at hdrop
      cases hdrop
    obtain ⟨l, hsplit, hl⟩ : ∃ l, subs = l ++ s :: r ∧ l.length = st.pNbl.getD 0 :=
      ⟨subs.take (st.pNbl.getD 0), by rw [← hdrop, take_append_drop], by simp [hlt.le]⟩
    rw [hdrop] at hcur hrounds
    rw [← hl, hsplit]
    obtain ⟨hpend, hrnd⟩ := descend_immediate_spec st₀ l r s him rfl
    refine ⟨hpend.trans hcur.symm, ?_, .of_immediate him⟩
    rw [hrounds]
    exact lt_of_le_of_lt hrnd (by simp [st₀])

/-- The queries at a group while the given OID is followed. -/
theorem SearchState.current_following (him : st.immediate = false)
    (hnode : st.node = some (.group subs)) (hxt : st.rest = x :: t) :
    st.current = queries st.path (x :: t) (registeredSubs subs) := by
  simp only [current, him, Bool.false_eq_true, if_false, hnode, hxt, registered]

theorem SearchState.rounds_following (him : st.immediate = false) (hp : st.pNbl = none)
    (hnode : st.node = some (.group subs)) :
    st.rounds = subsRounds subs + 4 + (st.stack.map entryRounds).sum := by
  simp only [rounds, him, hnode, hp, entryRounds, getD_none, drop_zero,
    Bool.false_eq_true, if_false]

/-- A round at a group that has the next sub-identifier. -/
theorem SearchState.progress_found {n : MibNode} {d : ℕ} (him : st.immediate = false)
    (hp : st.pNbl = none) (hnode : st.node = some (.group (l ++ (x, n) :: r)))
    (hxt : st.rest = x :: t) (hn : n.Wf d) (hl : ∀ s ∈ l, s.1 < x) (hr : ∀ s ∈ r, x < s.1)
    (hi : oidBinarySearch (subIds (l ++ (x, n) :: r)) x = l.length) :
    st.Progress (l ++ (x, n) :: r) := by
  -- the queries of the child, with what is left of the OID, and of the entries behind it
  have hsplit : st.current = queries (st.path ++ [x]) t (registered n) ++
      queries st.path [] (registeredSubs r) := by
    rw [current_following him hnode hxt, registeredSubs_append, queries_append,
      queries_registeredSubs_lt hl, nil_append, registeredSubs, queries_append,
      queries_registeredSub_same, queries_registeredSubs_gt hr]
  set st₁ : SearchState := { st with rest := t }.descend (l ++ (x, n) :: r) l.length with hst₁
  obtain ⟨hpend, hrnd⟩ := descend_following_spec { st with rest := t } l r (x, n) him hp
  have hpend' : st₁.pending = st.pending := by
    rw [hst₁, hpend, pending, hsplit, append_assoc]
  have hrnd' : st₁.rounds < st.rounds := by
    rw [rounds_following him hp hnode]
    exact lt_of_le_of_lt hrnd (by simp)
  have hnode₁ : st₁.node = some n := by simp [hst₁]
  have hround : st.groupRound (l ++ (x, n) :: r) =
      if st₁.rest.length = 0 ∧ (st₁.node.map MibNode.isGroup).getD false then
        some { st₁ with immediate := true }
      else some st₁ := by
    have hnneg : ¬ ((l.length : Int) < 0) := by omega
    rw [groupRound, if_neg (by simp [him])]
    simp only [hxt, headD_cons, hi, hnneg, if_false, Int.toNat_natCast, tail_cons,
      hst₁]
  -- an OID that is used up at a group makes the search immediate
  right
  rw [hround]
  split
  · next hused =>
      refine ⟨_, rfl, ?_, lt_of_le_of_lt (by simp [rounds]) hrnd', .of_immediate rfl⟩
      have hrest : st₁.rest = [] := length_eq_zero_iff.mp hused.1
      exact (pending_of_rest_nil st₁ him hp hrest (by simp [hnode₁])).trans hpend'
  · next hused =>
      refine ⟨_, rfl, hpend', hrnd', fun _ => ⟨hp, fun node hm => ?_⟩⟩
      obtain rfl : n = node := by simpa [hnode₁] using hm
      refine ⟨⟨d, hn⟩, fun hg ht => hused ⟨?_, ?_⟩⟩
      · simp [ht]
      · simpa [hnode₁] using hg

/-- A round at a group that lacks the next sub-identifier. -/
theorem SearchState.progress_missing (him : st.immediate = false) (hp : st.pNbl = none)
    (hnode : st.node = some (.group (l ++ r))) (hxt : st.rest = x :: t) (hl : ∀ s ∈ l, s.1 < x)
    (hr : ∀ s ∈ r, x < s.1) (hi : oidBinarySearch (subIds (l ++ r)) x = -(l.length : Int) - 1) :
    st.Progress (l ++ r) := by
  have hsplit : st.current = queries st.path [] (registeredSubs r) := by
    rw [current_following him hnode hxt, registeredSubs_append, queries_append,
      queries_registeredSubs_lt hl, nil_append, queries_registeredSubs_gt hr]
  have hround : st.groupRound (l ++ r) =
      if l.length = (l ++ r).length then none
      else if l.length = 0 then some { st with immediate := true }
      else some ({ st with immediate := true, rest := t }.descend (l ++ r) l.length) := by
    have hneg : -(l.length : Int) - 1 < 0 := by omega
    have hidx : (-(-(l.length : Int) - 1) - 1).toNat = l.length := by omega
    rw [groupRound, if_neg (by simp [him])]
    simp only [hxt, headD_cons, hi, hneg, if_true, hidx, tail_cons]
  have hrounds := rounds_following him hp hnode
  cases r with
  | nil =>
    refine .inl ⟨by rw [hround, if_pos (by simp)], ?_⟩
    rw [hsplit]
    rfl
  | cons s r =>
    rw [if_neg (by simp)] at hround
    right
    rw [hround]
    by_cases hl0 : l.length = 0
    · obtain rfl : l = [] := length_eq_zero_iff.mp hl0
      refine ⟨_, if_pos rfl, ?_, ?_, .of_immediate rfl⟩
      · rw [pending, pending, hsplit]
        simp [current, hnode, hp, entryQueries]
      · rw [hrounds]
        simp [rounds, hnode, hp, entryRounds]
    · obtain ⟨hpend, hrnd⟩ := descend_immediate_spec
        { st with immediate := true, rest := t } l r s rfl hp
      refine ⟨_, if_neg hl0, ?_, ?_, .of_immediate rfl⟩
      · rw [hpend, pending, hsplit]
      · rw [hrounds, subsRounds_append]
        refine lt_of_le_of_lt hrnd ?_
        dsimp only
        omega

/-- **One round at a group** makes progress. -/
theorem SearchState.groupRound_spec (hf : st.Following) (hnode : st.node = some (.group subs)) :
    st.Progress subs := by
  by_cases him : st.immediate = true
  · exact progress_immediate him hnode
  · rw [Bool.not_eq_true] at him
    obtain ⟨hp, hwf⟩ := hf him
    obtain ⟨⟨d, hd⟩, hrest⟩ := hwf _ hnode
    obtain ⟨-, hsorted, hsubs⟩ := MibNode.wf_group_iff.mp hd
    obtain ⟨x, t, hxt⟩ := exists_cons_of_ne_nil (hrest rfl)
    rcases subs_lookup hsorted x with ⟨l, n, r, rfl, hl, hr, hi⟩ | ⟨l, r, rfl, hl, hr, hi⟩
    · exact progress_found him hp hnode hxt (hsubs (x, n) (by simp)) hl hr hi
    · exact progress_missing him hp hnode hxt hl hr hi

/-! ### The loop makes the pending queries -/

/-- **Refinement.** With enough rounds, the loop makes the pending queries in order. -/
theorem searchLoop_eq_runQueries {σ : Type} (h : Handlers σ) (view orig : Oid) (fuel : ℕ)
    (st : SearchState) (ret : OidSearchRes) (hf : st.Following) (hfuel : st.rounds ≤ fuel) :
    searchLoop h view orig fuel st ret = runQueries h view orig st.pending ret := by
  induction fuel generalizing st ret with
  | zero =>
    have := entryRounds_pos (st.node, st.pNbl.getD 0)
    rw [SearchState.rounds] at hfuel
    omega
  | succ fuel ih =>
    -- leaving the current node goes on with the queries of the stack
    have hretreat : ∀ ret, retreat orig (searchLoop h view orig fuel) st ret =
        runQueries h view orig (stackQueries st.path.dropLast st.stack) ret := by
      intro ret
      rw [retreat]
      rcases st.backtrack_spec with ⟨hb, hq⟩ | ⟨st', hb, hq, hr, hf'⟩
      · rw [hb, hq]
        rfl
      · rw [hb, ← hq]
        refine ih st' ret hf' ?_
        have := entryRounds_pos (st.node, st.pNbl.getD 0)
        rw [SearchState.rounds] at hfuel
        omega
    rw [searchLoop]
    rcases hnode : st.node with _ | ⟨subs⟩ | callback
    · have hcur : st.current = [] := by
        rw [SearchState.current, hnode]
        split <;> rfl
      dsimp only
      rw [hretreat, SearchState.pending, hcur, nil_append]
    · rcases SearchState.groupRound_spec hf hnode with ⟨hg, hcur⟩ | ⟨st', hg, hq, hr, hf'⟩
      · simp only [hg]
        rw [hretreat, SearchState.pending, hcur, nil_append]
      · simp only [hg]
        rw [ih st' ret hf' (by omega), hq]
    · have hcur : st.current =
          [⟨st.path, callback, if st.immediate then [] else st.rest⟩] := by
        rw [SearchState.current, hnode]
        by_cases him : st.immediate = true
        · simp [him, entryQueries]
        · simp [him, queries, query, registered]
      simp only [hretreat, SearchState.pending, hcur, singleton_append, runQueries]

end SmithSnmp
