import SmithSnmp.Lib.Loops
import SmithSnmp.MibHeap

/-!
# Deleting a Sub-Tree

`__mib_tree_delete` frees the nodes of a sub-tree while it walks through them. A group is put on
the stack `nbl_stack` with the index of its next sub-node, -1 when there is none left; when the
walk comes back to it with -1, it is freed. An empty group is entered at its first pointer, which
is `NULL`, and left at once.

The loop works on the memory of `SmithSnmp.MibHeap`. It crashes when it reads a node that is not
there, in particular one that it has freed, when it reads a pointer beyond the end of `sub_ptr`,
and when the stack is full.

## Main results

* `Lays.swept`: the walk through a sub-tree frees its footprint, in order.
* `HeapReachable.lays`: every memory that registrations and unregistrations build lays out a
  reachable tree, no address twice.
* `heapTreeDelete_exact`: deletion terminates and is exact.
-/

namespace SmithSnmp

open List Lib MibNode StateTransition
open Option hiding map_map

variable {foot is : List ℕ} {i a c : ℕ} {m : Heap} {node : MibNode} {g : ChildArrays ℕ}
  {pair : NodePair}

/-! ### The loop -/

/-- What has become of a call. -/
inductive PassStatus where
  | running
  | returned
  | crashed
deriving DecidableEq, Repr

/-- The variables of `__mib_tree_delete`, with the memory it works on. A stack entry is a
backlogged group with the index of its next sub-node, where `none` is -1. -/
structure DeletePass where
  /-- the nodes in memory -/
  heap : Heap
  node : Option ℕ
  /-- `p_nbl->n_idx`, when `p_nbl` is set -/
  pNbl : Option (Option ℕ) := none
  /-- `nbl_stack` below `top`, the top first -/
  stack : List (ℕ × Option ℕ) := []
  freed : List ℕ := []
  /-- the callbacks unreferred so far -/
  unrefs : List Int := []
  /-- whether the loop goes on -/
  status : PassStatus := .running

/-- An access to memory that is not there. -/
def DeletePass.crash (st : DeletePass) : DeletePass := { st with status := .crashed }

/-- Backtracking; at the end of the traversal the entry of the parent is taken out. -/
def DeletePass.backtrack (pair : NodePair) (st : DeletePass) : DeletePass :=
  match st.stack with
  | [] =>
    match st.heap pair.parent with
    | some (.group g) =>
      { st with
        heap := st.heap.write pair.parent (.group (g.shrink pair.subIdx))
        node := none
        pNbl := none
        status := .returned }
    | _ => st.crash
  | (node, nIdx) :: stack => { st with node := some node, pNbl := some nIdx, stack := stack }

/-- One round of the loop. -/
def DeletePass.round (pair : NodePair) (st : DeletePass) : Option DeletePass :=
  if st.status = .running then
    match st.node with
    | none => some (st.backtrack pair)
    | some a =>
      match st.heap a with
      | none => some st.crash
      | some (.inst callback) =>
        some ({ st with
          heap := st.heap.free a
          freed := st.freed ++ [a]
          unrefs := st.unrefs ++ [callback] }.backtrack pair)
      | some (.group g) =>
        match st.pNbl.getD (some 0) with
        | none =>
          some ({ st with
            pNbl := none
            heap := st.heap.free a
            freed := st.freed ++ [a] }.backtrack pair)
        | some i =>
          if st.stack.length < asn1OidMaxLen then
            match g.subPtr[i]? with
            | some child =>
              some { st with
                node := child
                pNbl := none
                stack := (a, if g.subIdCnt ≤ i + 1 then none else some (i + 1)) ::
                  st.stack }
            | none => some st.crash
          else some st.crash
  else none

/-- `__mib_tree_delete`: the state in which it ends, if it does. The dummy root node cannot be
deleted. -/
noncomputable def heapTreeDelete (dummy : ℕ) (m : Heap) (pair : NodePair) : Part DeletePass :=
  if pair.child = some dummy then
    Part.some { heap := m, node := pair.child, status := .returned }
  else eval (DeletePass.round pair) { heap := m, node := pair.child }

/-- `mib_node_unreg`: the memory after it, if it returns. -/
noncomputable def heapNodeUnreg (dummy : ℕ) (m : Heap) (oid : Oid) : Part Heap :=
  match heapNodeSearch m oid dummy (some dummy) 0 with
  | none => Part.none
  | some (none, _) => Part.some m
  | some (some _, pair) => (heapTreeDelete dummy m pair).map DeletePass.heap

/-- The memories that registrations and unregistrations can build from `mib_init`, whatever free
addresses `malloc` gives. -/
inductive HeapReachable (dummy : ℕ) : Heap → Prop
  | init : HeapReachable dummy (mibDummyNodeInit dummy)
  | reg {m m' : Heap} (oid : Oid) (callback : Int) (fresh : List ℕ) (ret : Int) :
      HeapReachable dummy m → heapNodeReg dummy m oid callback fresh = some (ret, m') →
      HeapReachable dummy m'
  | unreg {m m' : Heap} (oid : Oid) :
      HeapReachable dummy m → m' ∈ heapNodeUnreg dummy m oid → HeapReachable dummy m'

/-! ### The walk -/

/-- The callback of the instance node at an address. -/
def callbackAt (m : Heap) (a : ℕ) : Option Int :=
  match m a with
  | some (.inst callback) => some callback
  | _ => none

/-- The nodes at the addresses are gone. -/
def Heap.clear (m : Heap) (foot : List ℕ) : Heap := fun b => if b ∈ foot then none else m b

theorem Heap.clear_of_notMem (m : Heap) {b : ℕ} (h : b ∉ foot) : m.clear foot b = m b := if_neg h

/-- The state with the nodes at the addresses freed, in order. -/
def DeletePass.sweep (st : DeletePass) (foot : List ℕ) : DeletePass :=
  { st with
    heap := st.heap.clear foot
    freed := st.freed ++ foot
    unrefs := st.unrefs ++ foot.filterMap (callbackAt st.heap) }

theorem DeletePass.sweep_nil (st : DeletePass) : st.sweep [] = st := by
  have hclear : st.heap.clear [] = st.heap := funext fun b => if_neg not_mem_nil
  simp [sweep, hclear]

/-- One sweep after another. -/
theorem DeletePass.sweep_append (st : DeletePass) {foot' : List ℕ} (h : ∀ b ∈ foot', b ∉ foot) :
    (st.sweep foot).sweep foot' = st.sweep (foot ++ foot') := by
  have hclear : (st.heap.clear foot).clear foot' = st.heap.clear (foot ++ foot') := by
    funext b
    by_cases h₁ : b ∈ foot <;> by_cases h₂ : b ∈ foot' <;> simp [Heap.clear, h₁, h₂]
  have hcallbacks : foot'.filterMap (callbackAt (st.heap.clear foot)) =
      foot'.filterMap (callbackAt st.heap) := by
    refine filterMap_congr fun b hb => ?_
    rw [callbackAt, callbackAt, Heap.clear_of_notMem _ (h b hb)]
  simp only [sweep, hclear, hcallbacks, filterMap_append, append_assoc]

/-- The state in which the walk comes back to a group. -/
def DeletePass.backAt (st : DeletePass) (a : ℕ) (nIdx : Option ℕ) : DeletePass :=
  { st with node := some a, pNbl := some nIdx }

theorem Heap.free_eq_clear (m : Heap) (a : ℕ) : m.free a = m.clear [a] := by
  funext b
  by_cases hb : b = a <;> simp [Heap.free, Heap.clear, Function.update, hb]

section Rounds

variable {pair : NodePair} {st : DeletePass} {a : ℕ} {g : ChildArrays ℕ}

theorem round_inst {callback : Int} (hrun : st.status = .running) (hnode : st.node = some a)
    (ha : st.heap a = some (.inst callback)) :
    st.round pair = some ((st.sweep [a]).backtrack pair) := by
  simp [DeletePass.round, hrun, hnode, ha, DeletePass.sweep, Heap.free_eq_clear, callbackAt]

theorem round_done (hrun : st.status = .running) (hnode : st.node = some a) (hnbl : st.pNbl = none)
    (ha : st.heap a = some (.group g)) :
    (st.backAt a none).round pair = some ((st.sweep [a]).backtrack pair) := by
  simp [DeletePass.round, DeletePass.backAt, hrun, hnode, hnbl, ha, DeletePass.sweep,
    Heap.free_eq_clear, callbackAt]

theorem round_down {child : Option ℕ} (hrun : st.status = .running) (hnode : st.node = some a)
    (hnbl : st.pNbl.getD (some 0) = some i) (ha : st.heap a = some (.group g))
    (hstack : st.stack.length < asn1OidMaxLen) (hptr : g.subPtr[i]? = some child) :
    st.round pair = some { st with
      node := child
      pNbl := none
      stack := (a, if g.subIdCnt ≤ i + 1 then none else some (i + 1)) :: st.stack } := by
  simp only [DeletePass.round, hrun, if_true, hnode, ha, hnbl, hstack, hptr]

/-- The walk leaves an empty group at its first pointer. -/
theorem reaches_empty (hold : g.Hold []) (hnull : g.subPtr.head? = some none)
    (hrun : st.status = .running) (hnode : st.node = some a) (hnbl : st.pNbl = none)
    (ha : st.heap a = some (.group g)) (hstack : st.stack.length < asn1OidMaxLen) :
    StateTransition.Reaches (DeletePass.round pair) st (st.backAt a none) := by
  have hcnt : g.subIdCnt ≤ 0 + 1 := by simp [hold.cnt]
  have hptr : g.subPtr[0]? = some none := by rw [← head?_eq_getElem?, hnull]
  have hdown : st.round pair = _ := round_down hrun hnode (by rw [hnbl]; rfl) ha hstack hptr
  simp only [hcnt, if_true] at hdown
  refine reaches_of_round hdown (reaches_of_round ?_ Relation.ReflTransGen.refl)
  simp [DeletePass.round, hrun, DeletePass.backtrack, DeletePass.backAt]

/-- The walk through the remaining sub-nodes of a group, when it can walk through each. -/
theorem reaches_rest (before : List Laid) {rest : List Laid}
    (hold : g.Hold ((before ++ rest).map Laid.entry)) (ha : m a = some (.group g))
    (hkids : ∀ e ∈ rest, ∀ st' : DeletePass, (∀ b ∈ e.foot, st'.heap b = m b) →
      st'.stack.length = st.stack.length + 1 → st'.status = .running →
      st'.node = some e.addr → st'.pNbl = none →
      StateTransition.Reaches (DeletePass.round pair) st' ((st'.sweep e.foot).backtrack pair))
    (hne : rest ≠ []) (hnd : (rest.flatMap Laid.foot ++ [a]).Nodup)
    (hheap : ∀ b ∈ rest.flatMap Laid.foot ++ [a], st.heap b = m b)
    (hstack : st.stack.length < asn1OidMaxLen) (hrun : st.status = .running)
    (hnode : st.node = some a) (hnbl : st.pNbl.getD (some 0) = some before.length) :
    StateTransition.Reaches (DeletePass.round pair) st
      ((st.sweep (rest.flatMap Laid.foot)).backAt a none) := by
  induction rest generalizing before st with
  | nil => exact absurd rfl hne
  | cons e rest ih =>
    have hptr : g.subPtr[before.length]? = some (some e.addr) := by
      rw [hold.subPtr_get (i := before.length) (by simp)]
      simp [Laid.entry]
    have hcnt : g.subIdCnt = before.length + rest.length + 1 := by
      rw [hold.cnt]
      simp
      omega
    refine reaches_of_round
      (round_down hrun hnode hnbl ((hheap a (by simp)).trans ha) hstack hptr) ?_
    rw [flatMap_cons, append_assoc] at hnd
    obtain ⟨-, hnd', hdisj⟩ := nodup_append.mp hnd
    have hapart : ∀ b ∈ rest.flatMap Laid.foot ++ [a], b ∉ e.foot := fun b hb hbe =>
      hdisj b hbe b hb rfl
    -- down into the first sub-node and back
    have hkid := hkids e mem_cons_self { st with
        node := some e.addr
        pNbl := none
        stack := (a, if g.subIdCnt ≤ before.length + 1 then none else some (before.length + 1)) ::
          st.stack }
      (fun b hb => hheap b (by simp [hb])) rfl hrun rfl rfl
    refine hkid.trans ?_
    -- the backlog has the next position, if there is one
    cases rest with
    | nil =>
      have hlast : g.subIdCnt ≤ before.length + 1 := by simp at hcnt; omega
      simp only [hlast, if_true, flatMap_cons, flatMap_nil, append_nil]
      exact Relation.ReflTransGen.refl
    | cons f rest =>
      have hmore : ¬ g.subIdCnt ≤ before.length + 1 := by simp at hcnt; omega
      simp only [hmore, if_false]
      set st' := (st.sweep e.foot).backAt a (some (before.length + 1)) with hst'
      have hheap' : ∀ b ∈ (f :: rest).flatMap Laid.foot ++ [a], st'.heap b = m b := by
        intro b hb
        refine (Heap.clear_of_notMem _ (hapart b hb)).trans (hheap b ?_)
        rw [flatMap_cons, append_assoc]
        exact mem_append_right _ hb
      have hnext : StateTransition.Reaches (DeletePass.round pair) st' _ :=
        ih (before ++ [e]) (by simpa using hold)
          (fun f hf => hkids f (mem_cons_of_mem e hf)) (by simp) hnd' hheap' hstack hrun rfl
          (by simp [hst', DeletePass.backAt])
      rw [flatMap_cons, ← st.sweep_append fun b hb => hapart b (mem_append_left _ hb)]
      exact hnext

end Rounds

/-- **The walk through a sub-tree** frees its footprint, in order, and backtracks. -/
theorem Lays.swept {d : ℕ} (pair : NodePair) (h : Lays m a node foot) (hnd : foot.Nodup)
    (hwf : node.Wf d) (st : DeletePass) (hheap : ∀ b ∈ foot, st.heap b = m b)
    (hstack : st.stack.length + d ≤ asn1OidMaxLen) (hrun : st.status = .running)
    (hnode : st.node = some a) (hnbl : st.pNbl = none) :
    StateTransition.Reaches (DeletePass.round pair) st ((st.sweep foot).backtrack pair) := by
  induction h generalizing d st with
  | inst ha =>
    have ha' := (hheap _ mem_cons_self).trans ha
    exact reaches_of_round (round_inst hrun hnode ha') Relation.ReflTransGen.refl
  | @group a g es ha hold hnull _ ih =>
    obtain ⟨hd, -, hsubs⟩ := wf_group_iff.mp hwf
    have hroom : st.stack.length < asn1OidMaxLen := by omega
    have ha' : st.heap a = some (.group g) := (hheap a (by simp)).trans ha
    have hsweep : StateTransition.Reaches (DeletePass.round pair) st
        ((st.sweep (es.flatMap Laid.foot)).backAt a none) := by
      by_cases hempty : es = []
      · subst hempty
        rw [flatMap_nil, st.sweep_nil]
        exact reaches_empty hold (hnull rfl) hrun hnode hnbl ha' hroom
      · refine reaches_rest [] hold ha (fun e he st' hheap' hstack' hrun' hnode' hnbl' =>
          ih e he ?_ (hsubs e.sub (mem_map_of_mem he)) st' hheap' (by omega) hrun' hnode' hnbl')
          hempty hnd hheap hroom hrun hnode (by rw [hnbl]; rfl)
        exact (nodup_flatMap.mp (nodup_append.mp hnd).1).1 e he
    have hroot : a ∉ es.flatMap Laid.foot := fun h =>
      (nodup_append.mp hnd).2.2 a h a (by simp) rfl
    refine hsweep.trans (reaches_of_round (round_done (by exact hrun) (by exact hnode)
      (by exact hnbl) ((Heap.clear_of_notMem _ hroot).trans ha')) ?_)
    rw [st.sweep_append (by simpa using hroot)]
    exact Relation.ReflTransGen.refl

/-! ### The deleted node and its parent -/

/-- What deleting the node of `pair` does to the tree at `a` with the given footprint: `g` are the
arrays of the parent, and a tree is laid out at `c`, the node itself, with the footprint `gone`. -/
structure Cut (m : Heap) (a : ℕ) (is : List ℕ) (pair : NodePair) (node sub : MibNode)
    (foot gone : List ℕ) (g : ChildArrays ℕ) (c : ℕ) : Prop where
  child : pair.child = some c
  lays : Lays m c sub gone
  nodup : gone.Nodup
  parent : m pair.parent = some (.group g)
  parent_kept : pair.parent ∈ foot ∧ pair.parent ∉ gone
  root_kept : a ∉ gone
  child_of : g.ptrs[pair.subIdx]? = some (some c)
  ids : (g.shrink pair.subIdx).ids = g.ids.eraseIdx pair.subIdx
  ptrs : (g.shrink pair.subIdx).ptrs = g.ptrs.eraseIdx pair.subIdx
  below : ∀ b ∈ gone, b ∈ foot
  after : ∀ m' : Heap, m' pair.parent = some (.group (g.shrink pair.subIdx)) →
    (∀ b ∈ foot, b ∉ gone → b ≠ pair.parent → m' b = m b) →
    ∃ foot', Lays m' a (mibTreeDeleteAt is node) foot' ∧ foot'.Nodup ∧
      ∀ b ∈ foot', b ∈ foot ∧ b ∉ gone

/-- An entry of the used pointers of a group. -/
theorem laid_of_ptrs {es : List Laid} (hold : g.Hold (es.map Laid.entry))
    (h : g.ptrs[i]? = some (some c)) : ∃ l e r, es = l ++ e :: r ∧ l.length = i ∧ e.addr = c := by
  rw [hold.ptrs, map_map, getElem?_map] at h
  obtain ⟨e, he, hc⟩ := map_eq_some_iff.mp h
  obtain ⟨hi, rfl⟩ := List.getElem?_eq_some_iff.mp he
  refine ⟨es.take i, es[i], es.drop (i + 1), ?_, by simp; omega, by simpa [Laid.entry] using hc⟩
  rw [cons_getElem_drop_succ, take_append_drop]

/-- The layout of a group around an entry of its used pointers. -/
theorem Lays.at_ptr (h : Lays m a node foot) (ha : m a = some (.group g))
    (hget : g.ptrs[i]? = some (some c)) :
    ∃ l e r, l.length = i ∧ e.addr = c ∧ node = .group ((l ++ e :: r).map Laid.sub) ∧
      foot = (l ++ e :: r).flatMap Laid.foot ++ [a] ∧ g.Hold ((l ++ e :: r).map Laid.entry) ∧
      ∀ f ∈ l ++ e :: r, Lays m f.addr f.node f.foot := by
  cases h with
  | inst ha' =>
    rw [ha] at ha'
    cases ha'
  | group ha' hold _ hes =>
    rw [ha] at ha'
    obtain rfl : _ = _ := Cell.group.inj (some.inj ha')
    obtain ⟨l, e, r, rfl, hi, hc⟩ := laid_of_ptrs hold hget
    exact ⟨l, e, r, hi, hc, rfl, rfl, hold, hes⟩

theorem Cut.last {l r : List Laid} {e : Laid} (ha : m a = some (.group g))
    (hold : g.Hold ((l ++ e :: r).map Laid.entry))
    (hes : ∀ f ∈ l ++ e :: r, Lays m f.addr f.node f.foot)
    (hnd : ((l ++ e :: r).flatMap Laid.foot ++ [a]).Nodup) :
    Cut m a [l.length] ⟨a, some e.addr, l.length⟩ (.group ((l ++ e :: r).map Laid.sub)) e.node
      ((l ++ e :: r).flatMap Laid.foot ++ [a]) e.foot g e.addr := by
  have hperm := foot_perm l r e a
  obtain ⟨hnd', hrest, hdisj⟩ := nodup_append.mp (hperm.nodup_iff.mp hnd)
  have hlt : l.length < ((l ++ e :: r).map Laid.entry).length := by simp
  have herase : ((l ++ e :: r).map Laid.entry).eraseIdx l.length = (l ++ r).map Laid.entry := by
    rw [eraseIdx_map, eraseIdx_append_of_length_le le_rfl]
    simp
  have hshrink := hold.shrink hlt
  have hroot : a ∉ e.foot := fun h => hdisj a h a (by simp) rfl
  refine ⟨rfl, hes e (by simp), hnd', ha, ⟨by simp, hroot⟩, hroot, ?_, ?_, ?_,
    fun b hb => hperm.mem_iff.mpr (mem_append_left _ hb), fun m' ha' hsame => ?_⟩
  · rw [hold.ptrs]
    simp [Laid.entry]
  · rw [hshrink.ids, hold.ids, eraseIdx_map (f := Prod.fst)]
  · rw [hshrink.ptrs, hold.ptrs, eraseIdx_map (f := some ∘ Prod.snd)]
  · rw [herase] at hshrink
    refine ⟨(l ++ r).flatMap Laid.foot ++ [a], ?_, hrest, fun b hb =>
      ⟨hperm.mem_iff.mpr (mem_append_right _ hb), fun hbe => hdisj b hbe b hb rfl⟩⟩
    have htree : mibTreeDeleteAt [l.length] (.group ((l ++ e :: r).map Laid.sub)) =
        .group ((l ++ r).map Laid.sub) := by
      simpa [Laid.sub] using deleteAt_entry (l := l.map Laid.sub) (r := r.map Laid.sub) (x := e.id)
        (n := e.node)
    rw [htree]
    refine .group ha' hshrink (fun hempty => ?_) fun f hf => ?_
    · obtain ⟨rfl, rfl⟩ := append_eq_nil_iff.mp hempty
      have hcnt : ¬ 1 < g.subIdCnt := by simp [hold.cnt]
      obtain ⟨p, ps, hps⟩ := exists_cons_of_length_pos (hold.lenPtr ▸ hold.cap_pos)
      simp [ChildArrays.shrink, hcnt, hps]
    · have hf' : f ∈ l ++ e :: r := by
        simp only [mem_append, mem_cons] at hf ⊢
        tauto
      -- the other children lie apart from what is freed
      refine (hes f hf').frame fun b hb => ?_
      have hb' : b ∈ (l ++ r).flatMap Laid.foot := mem_flatMap.mpr ⟨f, hf, hb⟩
      have hb'' : b ∈ (l ++ r).flatMap Laid.foot ++ [a] := mem_append_left _ hb'
      refine hsame b (hperm.mem_iff.mpr (mem_append_right _ hb''))
        (fun hbe => hdisj b hbe b hb'' rfl) ?_
      rintro rfl
      exact (nodup_append.mp hrest).2.2 b hb' b (by simp) rfl

theorem Cut.down {gp : ChildArrays ℕ} {l r : List Laid} {e : Laid} {j : ℕ} {gone : List ℕ}
    {sub : MibNode} (ha : m a = some (.group g)) (hold : g.Hold ((l ++ e :: r).map Laid.entry))
    (hes : ∀ f ∈ l ++ e :: r, Lays m f.addr f.node f.foot)
    (hnd : ((l ++ e :: r).flatMap Laid.foot ++ [a]).Nodup)
    (h : Cut m e.addr (j :: is) pair e.node sub e.foot gone gp c) :
    Cut m a (l.length :: j :: is) pair (.group ((l ++ e :: r).map Laid.sub)) sub
      ((l ++ e :: r).flatMap Laid.foot ++ [a]) gone gp c := by
  have hperm := foot_perm l r e a
  obtain ⟨-, hrest, hdisj⟩ := nodup_append.mp (hperm.nodup_iff.mp hnd)
  have hin : ∀ b ∈ e.foot, b ∈ (l ++ e :: r).flatMap Laid.foot ++ [a] := fun b hb =>
    hperm.mem_iff.mpr (mem_append_left _ hb)
  refine ⟨h.child, h.lays, h.nodup, h.parent, ⟨hin _ h.parent_kept.1, h.parent_kept.2⟩,
    fun hgone => hdisj a (h.below a hgone) a (by simp) rfl, h.child_of, h.ids, h.ptrs,
    fun b hb => hin b (h.below b hb), fun m' hparent hsame => ?_⟩
  obtain ⟨foot', hlays, hnodup, hkept⟩ := h.after m' hparent fun b hb => hsame b (hin b hb)
  -- the other nodes of the group are neither deleted nor the parent
  have hothers : ∀ b ∈ (l ++ r).flatMap Laid.foot ++ [a], m' b = m b := by
    intro b hb
    refine hsame b (hperm.mem_iff.mpr (mem_append_right _ hb)) ?_ ?_
    · exact fun hbg => hdisj b (h.below b hbg) b hb rfl
    · rintro rfl
      exact hdisj _ h.parent_kept.1 _ hb rfl
  obtain ⟨hlays', hnodup'⟩ := Lays.replace (l := l) (r := r)
    ⟨e.id, e.addr, mibTreeDeleteAt (j :: is) e.node, foot'⟩
    ((hothers a (by simp)).trans ha) (by simpa [Laid.entry] using hold)
    (fun f hf => hes f (by simp only [mem_append, mem_cons] at hf ⊢; tauto)) hrest hlays
    hnodup (fun b hb hmem => hdisj b (hkept b hb).1 b hmem rfl)
    (fun b hb => hothers b (mem_append_left _ hb))
  have htree := deleteAt_below (l := l.map Laid.sub) (r := r.map Laid.sub) (x := e.id)
    (n := e.node) j is
  refine ⟨_, ?_, hnodup', fun b hb => ?_⟩
  · rw [length_map] at htree
    rw [map_append, map_cons, Laid.sub, htree]
    simpa [Laid.sub] using hlays'
  · rcases mem_append.mp ((foot_perm l r _ a).mem_iff.mp hb) with hb | hb
    · exact ⟨hin b (hkept b hb).1, (hkept b hb).2⟩
    · exact ⟨hperm.mem_iff.mpr (mem_append_right _ hb),
        fun hbg => hdisj b (h.below b hbg) b hb rfl⟩

/-- Every node that child indices lead to can be cut off. -/
theorem LeadsTo.cut (h : LeadsTo m a is pair) {d : ℕ} (hlays : Lays m a node foot)
    (hnd : foot.Nodup) (hwf : node.Wf d) :
    ∃ sub gone g c, sub.Wf d ∧ Cut m a is pair node sub foot gone g c := by
  induction h generalizing node foot d with
  | last ha hget =>
    obtain ⟨l, e, r, rfl, rfl, rfl, rfl, hold, hes⟩ := hlays.at_ptr ha hget
    obtain ⟨-, -, hsubs⟩ := wf_group_iff.mp hwf
    have hsub := hsubs e.sub (mem_map_of_mem (by simp))
    exact ⟨_, _, _, _, hsub.mono (Nat.sub_le ..), Cut.last ha hold hes hnd⟩
  | @down a b i is g pair ha hget hleads ih =>
    obtain ⟨l, e, r, rfl, rfl, rfl, rfl, hold, hes⟩ := hlays.at_ptr ha hget
    obtain ⟨-, -, hsubs⟩ := wf_group_iff.mp hwf
    obtain ⟨j, is, rfl⟩ : ∃ j is', is = j :: is' := by
      cases hleads <;> exact ⟨_, _, rfl⟩
    have hnd' := (nodup_append.mp ((foot_perm l r e a).nodup_iff.mp hnd)).1
    obtain ⟨sub, gone, gp, c, hsub, hcut⟩ := ih (hes e (by simp)) hnd'
      (hsubs e.sub (mem_map_of_mem (by simp)))
    exact ⟨sub, gone, gp, c, hsub.mono (Nat.sub_le ..), hcut.down ha hold hes hnd⟩

/-! ### Deletion is exact -/

/-- The state in which a deletion ends. -/
theorem Cut.mem_heapTreeDelete {dummy : ℕ} {gone : List ℕ} {sub : MibNode}
    (h : Cut m dummy is pair node sub foot gone g c) (hwf : sub.Wf asn1OidMaxLen) :
    { heap := (m.clear gone).write pair.parent (.group (g.shrink pair.subIdx))
      node := none
      freed := gone
      unrefs := gone.filterMap (callbackAt m)
      status := .returned } ∈ heapTreeDelete dummy m pair := by
  have hne : ¬ pair.child = some dummy := by
    rw [h.child]
    rintro ⟨⟩
    exact h.root_kept h.lays.mem_foot
  have hrun := h.lays.swept pair h.nodup hwf { heap := m, node := some c }
    (fun _ _ => rfl) (by simp) rfl rfl rfl
  have hparent : m.clear gone pair.parent = some (.group g) :=
    (Heap.clear_of_notMem _ h.parent_kept.2).trans h.parent
  rw [heapTreeDelete, if_neg hne, h.child, mem_eval]
  refine ⟨?_, rfl⟩
  simpa [DeletePass.backtrack, DeletePass.sweep, hparent] using hrun

/-- **Memory and tree.** Every reachable memory lays out a reachable tree at the dummy root node,
and no address is met twice. -/
theorem HeapReachable.lays {dummy : ℕ} (h : HeapReachable dummy m) :
    ∃ tree foot, tree.Reachable ∧ Lays m dummy tree foot ∧ foot.Nodup := by
  induction h with
  | init => exact ⟨_, _, .init, .new (Heap.write_same ..), by simp⟩
  | @reg m m' oid callback fresh ret _ hreg ih =>
    obtain ⟨tree, foot, htree, hlays, hnd⟩ := ih
    rw [heapNodeReg] at hreg
    split at hreg
    · obtain ⟨-, rfl⟩ := Prod.mk.inj (some.inj hreg)
      exact ⟨tree, foot, htree, hlays, hnd⟩
    · next h0 =>
        split at hreg
        · obtain ⟨-, rfl⟩ := Prod.mk.inj (some.inj hreg)
          exact ⟨tree, foot, htree, hlays, hnd⟩
        · next hlong =>
            obtain ⟨⟨ok, m₁⟩, hins, hret⟩ := map_eq_some_iff.mp hreg
            obtain ⟨-, rfl⟩ := Prod.mk.inj hret
            -- the insertion is refused, or the tree grows with the memory
            rcases hlays.instanceInsert hnd htree.wf (not_lt.mp hlong) hins with
              ⟨-, rfl, -⟩ | ⟨-, tree', foot', hin⟩
            · exact ⟨tree, foot, htree, hlays, hnd⟩
            · have hnode : (mibNodeReg tree oid callback).2 = tree' := by
                simp only [mibNodeReg, if_neg h0, if_neg hlong, hin.tree]
              exact ⟨tree', foot', hnode ▸ .reg oid callback htree, hin.lays, hin.nodup⟩
  | @unreg m m' oid _ hunreg ih =>
    obtain ⟨tree, foot, htree, hlays, hnd⟩ := ih
    obtain ⟨r, pair, hsearch, hcases⟩ := hlays.nodeSearch htree.wf oid dummy 0
    rw [heapNodeUnreg, hsearch] at hunreg
    -- no node, the root, or a node below it, which is freed with its subtree
    rcases hcases with ⟨-, rfl⟩ | ⟨-, rfl, rfl⟩ | ⟨i, is, hfound, rfl, hleads⟩
    · obtain rfl : m' = m := by simpa using hunreg
      exact ⟨tree, foot, htree, hlays, hnd⟩
    · obtain ⟨last, hlast, rfl⟩ := (Part.mem_map_iff _).mp hunreg
      obtain rfl : last = _ := by simpa [heapTreeDelete] using hlast
      exact ⟨tree, foot, htree, hlays, hnd⟩
    · obtain ⟨sub, gone, g, c, hsub, hcut⟩ := hleads.cut hlays hnd htree.wf
      rw [hcut.child] at hunreg
      obtain ⟨last, hlast, rfl⟩ := (Part.mem_map_iff _).mp hunreg
      obtain rfl := Part.mem_unique hlast (hcut.mem_heapTreeDelete hsub)
      obtain ⟨foot', hlays', hnd', -⟩ := hcut.after _ (Heap.write_same ..) fun b _ hb hbp =>
        (Heap.write_of_ne _ _ hbp).trans (Heap.clear_of_notMem _ hb)
      have hnode : mibNodeUnreg tree oid = mibTreeDeleteAt (i :: is) tree := by
        simp only [mibNodeUnreg, hfound]
      exact ⟨_, foot', hnode ▸ .unreg oid htree, hlays', hnd'⟩

/-- An exact deletion of the node at `a`, by the state in which it ends. -/
structure DeletedExactly (m : Heap) (pair : NodePair) (a : ℕ) (last : DeletePass) : Prop where
  /-- it never reads a node that is not there, such as one that it has freed -/
  returned : last.status = .returned
  /-- the nodes of the sub-tree are freed, and no others -/
  freed : ∀ b, b ∈ last.freed ↔ Below m a b
  /-- each of them once -/
  once : last.freed.Nodup
  /-- and each callback is unreferred with its node -/
  unrefs : last.unrefs = last.freed.filterMap (callbackAt m)
  /-- all other nodes but the parent are as before -/
  kept : ∀ b, b ≠ pair.parent → last.heap b = if b ∈ last.freed then none else m b
  /-- the parent loses the entry of the node and keeps the others in order -/
  parent : pair.parent ∉ last.freed ∧ ∃ g, m pair.parent = some (.group g) ∧
    g.ptrs[pair.subIdx]? = some (some a) ∧
    last.heap pair.parent = some (.group (g.shrink pair.subIdx)) ∧
    (g.shrink pair.subIdx).ids = g.ids.eraseIdx pair.subIdx ∧
    (g.shrink pair.subIdx).ptrs = g.ptrs.eraseIdx pair.subIdx

/-- **Deletion is exact.** In every memory that registrations and unregistrations build,
`__mib_tree_delete` terminates for every node that `mib_tree_node_search` finds, other than the
dummy root node, and it deletes the sub-tree of the node exactly. -/
theorem heapTreeDelete_exact {dummy : ℕ} {m : Heap} (hr : HeapReachable dummy m) (oid : Oid) {a : ℕ}
    {pair : NodePair} (hfound : heapNodeSearch m oid dummy (some dummy) 0 = some (some a, pair))
    (hroot : a ≠ dummy) : ∃ last ∈ heapTreeDelete dummy m pair, DeletedExactly m pair a last := by
  obtain ⟨tree, foot, htree, hlays, hnd⟩ := hr.lays
  obtain ⟨r, pair', hsearch, hcases⟩ := hlays.nodeSearch htree.wf oid dummy 0
  obtain ⟨rfl, rfl⟩ := Prod.mk.inj (some.inj (hfound.symm.trans hsearch))
  rcases hcases with ⟨-, hnone⟩ | ⟨-, heq, -⟩ | ⟨i, is, -, hchild, hleads⟩
  · cases hnone
  · exact absurd (some.inj heq) hroot
  · obtain ⟨sub, gone, g, c, hsub, hcut⟩ := hleads.cut hlays hnd htree.wf
    obtain rfl : a = c := some.inj (hchild.trans hcut.child)
    refine ⟨_, hcut.mem_heapTreeDelete hsub, rfl, fun b => hcut.lays.mem_foot_iff, hcut.nodup, rfl,
      fun b hb => Heap.write_of_ne _ _ hb, hcut.parent_kept.2, g, hcut.parent, hcut.child_of,
      Heap.write_same .., hcut.ids, hcut.ptrs⟩

/-- The memory after the OID 1.2 was registered, with the nodes at the addresses 1 and 2. -/
def oneBranchHeap : Heap :=
  ((heapNodeReg 0 (mibDummyNodeInit 0) [1, 2] 7 [1, 2]).getD (0, fun _ => none)).2

/-- The group at the address 1 is deleted with the instance node below it. -/
theorem oneBranch_deleted : ∃ last ∈ heapTreeDelete 0 oneBranchHeap ⟨0, some 1, 0⟩,
    DeletedExactly oneBranchHeap ⟨0, some 1, 0⟩ 1 last :=
  heapTreeDelete_exact (.reg [1, 2] 7 [1, 2] 0 .init rfl) [1] rfl (by decide)

end SmithSnmp
