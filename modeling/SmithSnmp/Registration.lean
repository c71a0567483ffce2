import SmithSnmp.MibCapacity
import SmithSnmp.MibNext
import SmithSnmp.MsgTrace

/-!
# Registering and Unregistering

What `mib_node_reg` and `mib_node_unreg` do to the registered instance nodes.

A registration works on the arrays of the tree in place, with `sub_id_cnt` and `sub_id_cap` of 16
bits. As long as no group has more than 47421 sub-nodes the arrays are those of the tree of
pairs, and a failed registration leaves no traces. Unregistering takes out the sub-tree at the
OID, and also an instance node one sub-identifier above it. The groups that a registration has
created on its way stay in the tree when it is undone.

## Main results

* `mibNode_reg_dispatch`: when a registration succeeds, what it adds, and which handler a
  search calls in the end.
* `mibNodeUnreg_exact_iff`: when unregistering removes exactly what it names.
* `unreg_undoes_reg_iff`: when unregistering undoes a registration.
-/

namespace SmithSnmp

open List Lib MibNode

variable {p oid : Oid} {node tree : MibNode} {d : ℕ} {callback : Int}

/-! ### One entry of a group -/

section Entry

variable {l r : List (UInt32 × MibNode)} {x : UInt32} {n : MibNode}

/-- The binary search finds an entry between the smaller and the greater ones. -/
theorem search_present (hl : ∀ s ∈ l, s.1 < x) (hr : ∀ s ∈ r, x < s.1) :
    oidBinarySearch (subIds (l ++ (x, n) :: r)) x = l.length := by
  have hids : subIds (l ++ (x, n) :: r) = subIds l ++ x :: subIds r := by simp [subIds]
  rw [hids, oidBinarySearch_found]
  · simp [subIds]
  · exact forall_mem_map.mpr hl
  · exact forall_mem_map.mpr hr

/-- The path through an entry goes on at its node. -/
theorem leads_present_iff (hl : ∀ s ∈ l, s.1 < x) (hr : ∀ s ∈ r, x < s.1) :
    Leads (.group (l ++ (x, n) :: r)) (x :: p) node ↔ Leads n p node := by
  constructor
  · intro h
    cases h with
    | @down _ _ m _ _ hm hleads =>
      rcases mem_append.mp hm with hm | hm
      · exact absurd (hl _ hm) (lt_irrefl x)
      · rcases mem_cons.mp hm with hm | hm
        · obtain ⟨-, rfl⟩ := Prod.mk.inj hm
          exact hleads
        · exact absurd (hr _ hm) (lt_irrefl x)
  · exact fun h => .down (by simp) h

/-- There is no path through an entry that is missing. -/
theorem not_leads_missing (hl : ∀ s ∈ l, s.1 < x) (hr : ∀ s ∈ r, x < s.1) :
    ¬ Leads (.group (l ++ r)) (x :: p) node := by
  intro h
  cases h with
  | down hm _ =>
    rcases mem_append.mp hm with hm | hm
    · exact absurd (hl _ hm) (lt_irrefl x)
    · exact absurd (hr _ hm) (lt_irrefl x)

/-- No instance node below the other entries has a path through `x`. -/
theorem ne_of_mem_registeredSubs {subs : List (UInt32 × MibNode)} (hs : ∀ s ∈ subs, s.1 ≠ x)
    {e : Oid × Int} (he : e ∈ registeredSubs subs) (p : Oid) : ¬ x :: p <+: e.1 := by
  obtain ⟨q, callback⟩ := e
  obtain ⟨y, m, q', hy, rfl, -⟩ := mem_registeredSubs_iff.mp he
  intro hpre
  exact hs (y, m) hy (cons_prefix_cons.mp hpre).1.symm

end Entry

/-- There is a node at every prefix of a path. -/
theorem MibNode.Leads.above {root : MibNode} {q : Oid} (h : Leads root (p ++ q) node) :
    ∃ m, Leads root p m := by
  induction p generalizing root with
  | nil => exact ⟨root, .here⟩
  | cons x p ih =>
    cases h with
    | down hm hrest =>
      obtain ⟨m, hleads⟩ := ih hrest
      exact ⟨m, .down hm hleads⟩

/-! ### Insertion -/

/-- The nodes that an insertion creates for the rest of its OID. -/
def chain (callback : Int) : Oid → MibNode
  | [] => .inst callback
  | x :: rest => .group [(x, chain callback rest)]

theorem instanceInsert_raw (callback : Int) (x : UInt32) (rest : Oid) :
    mibTreeInstanceInsert callback (x :: rest) (.group []) = some (chain callback (x :: rest)) := by
  induction rest generalizing x with
  | nil => rfl
  | cons y rest ih =>
    rw [mibTreeInstanceInsert]
    simp only [length_cons, Nat.add_one_ne_zero, if_false, ih y]
    rfl

section Insert

variable {callback : Int} {l r : List (UInt32 × MibNode)} {x : UInt32} {n : MibNode}

/-- The node allocated for a missing sub-identifier. -/
theorem insert_child_eq (callback : Int) (rest : Oid) :
    (if rest.length = 0 then some (.inst callback)
      else mibTreeInstanceInsert callback rest (.group [])) = some (chain callback rest) := by
  cases rest with
  | nil => rfl
  | cons y rest => simpa using instanceInsert_raw callback y rest

/-- Where the sub-identifier is present, the insertion goes on below it. -/
theorem instanceInsert_present (hl : ∀ s ∈ l, s.1 < x) (hr : ∀ s ∈ r, x < s.1) (rest : Oid) :
    mibTreeInstanceInsert callback (x :: rest) (.group (l ++ (x, n) :: r)) =
      (mibTreeInstanceInsert callback rest n).map fun n' => .group (l ++ (x, n') :: r) := by
  have hraw : ¬ isRawGroup (l ++ (x, n) :: r) = true := by simp [isRawGroup]
  rw [mibTreeInstanceInsert]
  simp only [hraw, Bool.false_eq_true, if_false, search_present hl hr, Int.natCast_nonneg, if_true,
    Int.toNat_natCast, getElem?_append_right le_rfl, Nat.sub_self, getElem?_cons_zero]
  congr 1
  funext n'
  simp

theorem instanceInsert_missing (hl : ∀ s ∈ l, s.1 < x) (hr : ∀ s ∈ r, x < s.1)
    (hi : oidBinarySearch (subIds (l ++ r)) x = -(l.length : Int) - 1) (rest : Oid) :
    mibTreeInstanceInsert callback (x :: rest) (.group (l ++ r)) =
      some (.group (l ++ (x, chain callback rest) :: r)) := by
  rw [mibTreeInstanceInsert, insert_child_eq]
  by_cases hraw : isRawGroup (l ++ r) = true
  · obtain ⟨rfl, rfl⟩ : l = [] ∧ r = [] := by simpa [isRawGroup] using hraw
    rfl
  · have hneg : ¬ (0 : Int) ≤ -(l.length : Int) - 1 := by omega
    have hindex : (-(-(l.length : Int) - 1) - 1).toNat = l.length := by omega
    simp only [hraw, Bool.false_eq_true, if_false, hi, hneg, hindex, groupNodeExpand]
    simp

end Insert

/-- Nothing stands in the way of a registration: there is no node at the OID, and no registered
instance node strictly above it. -/
def Vacant (tree : MibNode) (oid : Oid) : Prop :=
  (∀ node, ¬ Leads tree oid node) ∧
    ∀ p callback, (p, callback) ∈ registered tree → ¬ (p <+: oid ∧ p ≠ oid)

theorem instanceInsert_isSome_iff (callback : Int) (hwf : tree.Wf d) :
    (mibTreeInstanceInsert callback oid tree).isSome = true ↔ Vacant tree oid := by
  induction oid generalizing tree d with
  | nil =>
    refine iff_of_false (by simp [mibTreeInstanceInsert]) fun h => ?_
    exact h.1 tree .here
  | cons x rest ih =>
    cases tree with
    | inst cb =>
      refine iff_of_false (by simp [mibTreeInstanceInsert]) fun h => ?_
      exact h.2 [] cb (by simp [registered]) ⟨ nil_prefix, by simp⟩
    | group subs =>
      obtain ⟨-, hs, hsubs⟩ := wf_group_iff.mp hwf
      rcases subs_lookup hs x with ⟨l, n, r, rfl, hl, hr, -⟩ | ⟨l, r, rfl, hl, hr, hi⟩
      · rw [instanceInsert_present hl hr, Option.isSome_map, ih (hsubs (x, n) (by simp))]
        -- the OID is vacant in the group exactly if its rest is vacant in the child
        refine and_congr (forall_congr' fun node => not_congr ?_) ⟨?_, ?_⟩
        · exact (leads_present_iff hl hr).symm
        · rintro hvac p cb hp ⟨hpre, hne⟩
          obtain ⟨y, m, q, hy, rfl, hq⟩ := mem_registeredSubs_iff.mp hp
          obtain ⟨rfl, hpre'⟩ := cons_prefix_cons.mp hpre
          obtain rfl := eq_of_mem_subs hs hy (by simp : (y, n) ∈ l ++ (y, n) :: r)
          exact hvac q cb hq ⟨hpre', fun he => hne (by rw [he])⟩
        · rintro hvac q cb hq ⟨hpre, hne⟩
          refine hvac (x :: q) cb (mem_registeredSubs_iff.mpr ⟨x, n, q, by simp, rfl, hq⟩) ?_
          exact ⟨cons_prefix_cons.mpr ⟨rfl, hpre⟩, fun he => hne (List.cons.inj he).2⟩
      · rw [instanceInsert_missing hl hr hi]
        refine iff_of_true rfl ⟨fun node => not_leads_missing hl hr, ?_⟩
        rintro p cb hp ⟨hpre, -⟩
        obtain ⟨y, m, q, hy, rfl, -⟩ := mem_registeredSubs_iff.mp hp
        obtain ⟨rfl, -⟩ := cons_prefix_cons.mp hpre
        exact not_leads_missing hl hr (.down hy .here)

/-- The one instance node of a chain. -/
theorem registered_chain (callback : Int) (oid : Oid) :
    registered (chain callback oid) = [(oid, callback)] := by
  induction oid with
  | nil => simp [chain, registered]
  | cons x rest ih => simp [chain, registered, registeredSubs, registeredSub, ih]

/-- **Insertion** adds its OID to the registered ones. -/
theorem mem_registered_insert {tree' : MibNode} (hwf : tree.Wf d)
    (h : mibTreeInstanceInsert callback oid tree = some tree') (q : Oid) (cb : Int) :
    (q, cb) ∈ registered tree' ↔
      (q, cb) ∈ registered tree ∨ (q = oid ∧ cb = callback) := by
  induction oid generalizing tree tree' d q cb with
  | nil => simp [mibTreeInstanceInsert] at h
  | cons x rest ih =>
    cases tree with
    | inst => simp [mibTreeInstanceInsert] at h
    | group subs =>
      obtain ⟨-, hs, hsubs⟩ := wf_group_iff.mp hwf
      rcases subs_lookup hs x with ⟨l, n, r, rfl, hl, hr, -⟩ | ⟨l, r, rfl, hl, hr, hi⟩
      · rw [instanceInsert_present hl hr] at h
        obtain ⟨n', hn', rfl⟩ := Option.map_eq_some_iff.mp h
        have hbelow := ih (hsubs (x, n) (by simp)) hn'
        simp only [registered, registeredSubs_append, registeredSubs, registeredSub,
          mem_append, mem_map, Prod.exists, Prod.mk.injEq, hbelow]
        constructor
        · rintro (hq | ⟨q', cb', hq' | ⟨rfl, rfl⟩, rfl, rfl⟩ | hq)
          · exact .inl (.inl hq)
          · exact .inl (.inr (.inl ⟨q', cb', hq', rfl, rfl⟩))
          · exact .inr ⟨rfl, rfl⟩
          · exact .inl (.inr (.inr hq))
        · rintro ((hq | ⟨q', cb', hq', rfl, rfl⟩ | hq) | ⟨rfl, rfl⟩)
          · exact .inl hq
          · exact .inr (.inl ⟨q', cb', .inl hq', rfl, rfl⟩)
          · exact .inr (.inr hq)
          · exact .inr (.inl ⟨rest, cb, .inr ⟨rfl, rfl⟩, rfl, rfl⟩)
      · rw [instanceInsert_missing hl hr hi] at h
        obtain rfl := Option.some.inj h
        simp only [registered, registeredSubs_append, registeredSubs, registeredSub,
          registered_chain, map_cons, map_nil, mem_append, mem_singleton,
          Prod.mk.injEq]
        tauto

/-- What a registration does: it succeeds at a vacant OID and adds it, and otherwise leaves the
tree as it was. -/
structure Registers (tree : MibNode) (oid : Oid) (callback : Int) (r : Int × MibNode) : Prop where
  /-- `0` is returned at a vacant OID -/
  succeeds : r.1 = 0 ↔ Vacant tree oid
  /-- the OID is added with its handler -/
  added : r.1 = 0 → ∀ q cb, (q, cb) ∈ registered r.2 ↔
    (q, cb) ∈ registered tree ∨ (q = oid ∧ cb = callback)
  /-- a failure is `-1`, with the tree as it was -/
  unchanged : r.1 ≠ 0 → r = (-1, tree)

/-- **Registering** an OID of 1 to 64 sub-identifiers. -/
theorem mibNodeReg_registers (hwf : tree.Wf asn1OidMaxLen) (h1 : 1 ≤ oid.length)
    (h64 : oid.length ≤ asn1OidMaxLen) (callback : Int) :
    Registers tree oid callback (mibNodeReg tree oid callback) := by
  have h0 : ¬ oid.length = 0 := by omega
  rw [mibNodeReg, if_neg h0, if_neg (not_lt.mpr h64)]
  have hsome : (mibTreeInstanceInsert callback oid tree).isSome = true ↔ Vacant tree oid :=
    instanceInsert_isSome_iff callback hwf
  cases hins : mibTreeInstanceInsert callback oid tree with
  | none =>
    rw [hins] at hsome
    exact ⟨iff_of_false (by simp) fun hv => absurd (hsome.mpr hv) (by simp), by simp,
      fun _ => rfl⟩
  | some tree' =>
    rw [hins] at hsome
    exact ⟨iff_of_true rfl (hsome.mp rfl), fun _ => mem_registered_insert hwf hins,
      fun hne => absurd rfl hne⟩

/-! ### Dispatch -/

/-- What `mib_tree_search` does with an OID in the view: it calls the handler registered above
the OID, with the rest of the OID, and no handler when the OID is itself registered or nothing
is registered above it. -/
structure Dispatches (tree : MibNode) (view oid : Oid) : Prop where
  /-- at most one instance node is at or above the OID -/
  unique : ∀ p callback q cb, (p, callback) ∈ registered tree → (q, cb) ∈ registered tree →
    p <+: oid → q <+: oid → (p, callback) = (q, cb)
  /-- the handler of an instance node strictly above the OID is called, and no other one -/
  call : ∀ p callback x, (p, callback) ∈ registered tree → oid = p ++ x → x ≠ [] →
    ∀ {σ : Type} (h : Handlers σ) (ret : OidSearchRes) (w : World Event σ),
      let arg := if ret.request = .set then some (luaPush ret.var) else none
      let ret' := { ret with oid := oid, errStat := 0, instId := x, callback := callback }
      let (reply, st) := h.call callback ret.request x arg w.state
      mibTreeSearch h tree view oid ret w =
        ((takeReply p ret' reply).map fun r => (some (.inst callback), r),
          { state := st, log := w.log ++ [.call ret.request callback oid] })
  /-- the OID of an instance node itself is no instance -/
  itself : ∀ callback, (oid, callback) ∈ registered tree →
    ∀ {σ : Type} (h : Handlers σ) (ret : OidSearchRes) (w : World Event σ),
      ∃ r, mibTreeSearch h tree view oid ret w = (some r, w) ∧
        r.2.var.tag = asn1TagNoSuchInst
  /-- there is no object where nothing is registered at or above the OID -/
  missing : (∀ p callback, (p, callback) ∈ registered tree → ¬ p <+: oid) →
    ∀ {σ : Type} (h : Handlers σ) (ret : OidSearchRes) (w : World Event σ),
      ∃ r, mibTreeSearch h tree view oid ret w = (some r, w) ∧
        r.2.var.tag = asn1TagNoSuchObj

/-- **Dispatch** of an OID in the view. -/
theorem mibTreeSearch_dispatches (hwf : tree.Wf d) {view : Oid} (hcov : view <+: oid) :
    Dispatches tree view oid := by
  have hpos : ¬ oidCover view oid ≤ 0 := not_le.mpr ((oidCover_pos_iff view oid).mpr hcov)
  refine ⟨?_, ?_, ?_, ?_⟩
  · intro p callback q cb hp hq hpo hqo
    obtain rfl := registered_unique hwf hp hq hpo hqo
    have hwalk := (mibTreeWalk_registered hwf hp []).symm.trans (mibTreeWalk_registered hwf hq [])
    obtain rfl : callback = cb := by simpa using hwalk
    rfl
  · rintro p callback x hreg rfl hx σ h ret w
    obtain ⟨y, rest, rfl⟩ := exists_cons_of_ne_nil hx
    have htake : (p ++ y :: rest).take ((p ++ y :: rest).length - (y :: rest).length) = p := by
      simp
    simp only [mibTreeSearch, hpos, if_false, mibTreeWalk_registered hwf hreg, htake]
    rw [Traced.bind_apply, mibInstanceSearch_apply]
    dsimp only
    cases takeReply p _ _ <;> rfl
  · intro callback hreg σ h ret w
    have hwalk := mibTreeWalk_registered hwf hreg []
    rw [append_nil] at hwalk
    simp only [mibTreeSearch, hpos, if_false, hwalk]
    exact ⟨_, rfl, rfl⟩
  · intro hnone σ h ret w
    rcases hwalk : mibTreeWalk oid tree with ⟨⟨subs⟩ | callback, rest⟩
    · simp only [mibTreeSearch, hpos, if_false, hwalk]
      exact ⟨_, rfl, rfl⟩
    · obtain ⟨p, ho, hreg⟩ := mibTreeWalk_inst hwf hwalk
      exact absurd (ho ▸ prefix_append p rest) (hnone p callback hreg)

/-! ### Histories of 16 bits -/

/-- No group ever has more than 47421 sub-nodes along the calls. -/
def WithinCapacity (ops : List TreeOp) : Prop :=
  ∀ pre, pre <+: ops → (treeAfter pre).toNode.AtMost maxSiblings

/-- The arrays after such calls. -/
theorem WithinCapacity.inCapacity {ops : List TreeOp} (h : WithinCapacity ops) :
    (wordRun mibInit ops).2.InCapacity := by
  obtain ⟨heq, hcap⟩ := ArrayNode.inCapacity_init.run h
  rw [heq]
  exact hcap

/-- The accesses of the calls tell it. -/
theorem withinCapacity_of_sound {ops : List TreeOp}
    (h : ∀ a ∈ (wordRun mibInit ops).1, a.Sound) : WithinCapacity ops :=
  (ArrayNode.inCapacity_init.run_iff ops).mp h

theorem WithinCapacity.of_reg {ops : List TreeOp} (h : WithinCapacity (ops ++ [.reg oid callback])) :
    WithinCapacity ops ∧
      (mibNodeReg (wordRun mibInit ops).2.toNode oid callback).2.AtMost maxSiblings := by
  have hops : WithinCapacity ops := fun pre hpre => h pre (hpre.trans (prefix_append ops _))
  have hcap := hops.inCapacity
  have hlast := h _ prefix_rfl
  rw [treeAfter, foldl_concat] at hlast
  rw [← (hcap.paired.nodeReg hcap.reachable.wf oid callback).1,
    (ArrayNode.inCapacity_init.run hops).1]
  exact ⟨hops, hlast⟩

namespace ArrayNode

variable {tree : ArrayNode}

/-- **A registration in the arrays** is one in the tree of pairs if that leaves no group too
large. -/
theorem InCapacity.registers (h : InCapacity tree)
    (hmost : (mibNodeReg tree.toNode oid callback).2.AtMost maxSiblings) :
    (∀ a ∈ (wordNodeReg tree oid callback).1, a.Sound) ∧
      (wordNodeReg tree oid callback).2.1 = (mibNodeReg tree.toNode oid callback).1 ∧
      (wordNodeReg tree oid callback).2.2.toNode = (mibNodeReg tree.toNode oid callback).2 ∧
      InCapacity (wordNodeReg tree oid callback).2.2 := by
  obtain ⟨hreg, -⟩ := h.paired.nodeReg h.reachable.wf oid callback
  have hmost' : ((TreeOp.reg oid callback).apply tree).toNode.AtMost maxSiblings := by
    rw [← hreg] at hmost
    exact hmost
  obtain ⟨hsound, heq, -⟩ := (h.nodeReg oid callback).1 hmost'
  obtain ⟨hnext, htree, -⟩ := h.next hmost'
  rw [← hreg, heq]
  refine ⟨hsound, rfl, rfl, ?_⟩
  rw [← htree, wordApply, heq] at hnext
  exact hnext

/-- Otherwise an access of it is not sound. -/
theorem InCapacity.overruns (h : InCapacity tree)
    (hmost : ¬(mibNodeReg tree.toNode oid callback).2.AtMost maxSiblings) :
    ¬∀ a ∈ (wordNodeReg tree oid callback).1, a.Sound := by
  rw [← (h.paired.nodeReg h.reachable.wf oid callback).1] at hmost
  obtain ⟨a, ha, hno⟩ := (h.nodeReg oid callback).2 hmost
  exact fun hall => hno (hall a ha)

end ArrayNode

/-- **Registration and dispatch.** In every tree that results from calls along which no group has
more than 47421 sub-nodes, a registration of 1 to 64 sub-identifiers that leaves it so stays
inside of the arrays, succeeds exactly at a vacant OID, and adds it to the registered ones; a
search in a view calls the handler registered above its OID, if there is one. -/
theorem mibNode_reg_dispatch {ops : List TreeOp} (h : WithinCapacity ops) :
    let tree := (wordRun mibInit ops).2
    (∀ oid callback, 1 ≤ oid.length → oid.length ≤ asn1OidMaxLen →
        WithinCapacity (ops ++ [.reg oid callback]) →
        let r := wordNodeReg tree oid callback
        (∀ a ∈ r.1, a.Sound) ∧ Registers tree.toNode oid callback (r.2.1, r.2.2.toNode)) ∧
      ∀ view oid, view <+: oid → Dispatches tree.toNode view oid := by
  have hcap := h.inCapacity
  refine ⟨fun oid callback h1 h64 hmore => ?_, fun view oid hcov => ?_⟩
  · obtain ⟨hsound, hcode, htree, -⟩ := hcap.registers hmore.of_reg.2
    refine ⟨hsound, ?_⟩
    rw [hcode, htree]
    exact mibNodeReg_registers hcap.reachable.wf h1 h64 callback
  · exact mibTreeSearch_dispatches hcap.reachable.wf hcov

/-- The sub-identifiers of the tree of pairs are those of the arrays. -/
theorem mem_ids_of_mem_toSubs {ids : List UInt32} {ptrs : List (Option ArrayNode)} {k : ℕ}
    {s : UInt32 × MibNode} (h : s ∈ (toSubs ids ptrs).take k) : s.1 ∈ ids.take k := by
  induction ids generalizing ptrs k with
  | nil => simp [toSubs] at h
  | cons x ids ih =>
    rcases ptrs with _ | ⟨_ | n, ptrs⟩
    · simp [toSubs] at h
    · simp [toSubs] at h
    · cases k with
      | zero => simp at h
      | succ k =>
        rw [toSubs, take_succ_cons] at h
        rw [take_succ_cons]
        rcases mem_cons.mp h with rfl | h
        · exact mem_cons_self
        · exact mem_cons_of_mem x (ih h)

/-- With `0` to `47421` registered, the vacant OID `47422` is not added: the entries of the root
are copied into arrays of 8400 elements, beyond their end. -/
theorem vacant_reg_overruns :
    let tree := (wordRun mibInit (siblingOps 47422)).2
    Vacant tree.toNode [UInt32.ofNat 47422] ∧
      .write 8400 8400 8400 8400 ∈ (wordNodeReg tree [UInt32.ofNat 47422] 0).1 ∧
      ¬(EntryAccess.write 8400 8400 8400 8400).Sound := by
  refine ⟨?_, mem_wordNodeReg_sibling, by decide⟩
  obtain ⟨⟨cap, cnt, ids, ptrs⟩, accesses, hrun, -, -, hids⟩ := wordRun_siblingOps_full
  rw [hrun, ArrayNode.toNode]
  refine ⟨fun node hleads => ?_, ?_⟩
  · cases hleads with
    | down hs =>
      have hmem := mem_ids_of_mem_toSubs hs
      rw [show ids.take cnt = _ from hids] at hmem
      obtain ⟨s, hsib, heq⟩ := mem_map.mp hmem
      obtain ⟨k, hk, rfl⟩ := mem_map.mp hsib
      have hlt := mem_range.mp hk
      have hk' := congrArg UInt32.toNat heq
      rw [UInt32.toNat_ofNat_of_lt' (by rw [UInt32.size]; omega),
        UInt32.toNat_ofNat_of_lt' (by decide)] at hk'
      omega
  · rintro p callback hp ⟨hpre, hne⟩
    obtain ⟨x, n, q, -, rfl, -⟩ := mem_registeredSubs_iff.mp hp
    obtain ⟨rfl, hq⟩ := cons_prefix_cons.mp hpre
    exact hne (by rw [prefix_nil.mp hq])

/-- With `1.3` registered, the registration of `1.4`. -/
theorem twoNodes_reg_dispatch :
    let ops : List TreeOp := [.reg [1, 3] 0]
    let tree := (wordRun mibInit ops).2
    WithinCapacity ops ∧ WithinCapacity (ops ++ [.reg [1, 4] 7]) ∧
      Registers tree.toNode [1, 4] 7
        ((wordNodeReg tree [1, 4] 7).2.1, (wordNodeReg tree [1, 4] 7).2.2.toNode) ∧
      Dispatches tree.toNode [1] [1, 3, 0] := by
  have hops : WithinCapacity [.reg [1, 3] 0] := withinCapacity_of_sound (by decide)
  have hmore : WithinCapacity ([.reg [1, 3] 0] ++ [.reg [1, 4] 7]) :=
    withinCapacity_of_sound (by decide)
  obtain ⟨hreg, hdispatch⟩ := mibNode_reg_dispatch hops
  exact ⟨hops, hmore, (hreg [1, 4] 7 (by decide) (by decide) hmore).2,
    hdispatch [1] [1, 3, 0] (by decide)⟩

/-! ### Unregistering -/

section Delete

variable {l r : List (UInt32 × MibNode)} {x : UInt32} {n : MibNode}

theorem nodeSearch_present (hl : ∀ s ∈ l, s.1 < x) (hr : ∀ s ∈ r, x < s.1) (rest : Oid) :
    mibTreeNodeSearch (x :: rest) (.group (l ++ (x, n) :: r)) =
      (mibTreeNodeSearch rest n).map (l.length :: ·) := by
  rw [mibTreeNodeSearch]
  simp [search_present hl hr]

theorem nodeSearch_missing
    (hi : oidBinarySearch (subIds (l ++ r)) x = -(l.length : Int) - 1) (rest : Oid) :
    mibTreeNodeSearch (x :: rest) (.group (l ++ r)) = none := by
  have hneg : ¬ (0 : Int) ≤ -(l.length : Int) - 1 := by omega
  simp only [mibTreeNodeSearch, hi, hneg, if_false]

theorem deleteAt_entry : mibTreeDeleteAt [l.length] (.group (l ++ (x, n) :: r)) = .group (l ++ r) := by
  rw [mibTreeDeleteAt, groupNodeShrink, eraseIdx_append_of_length_le le_rfl]
  simp

theorem deleteAt_below (j : ℕ) (is : List ℕ) :
    mibTreeDeleteAt (l.length :: j :: is) (.group (l ++ (x, n) :: r)) =
      .group (l ++ (x, mibTreeDeleteAt (j :: is) n) :: r) := by
  rw [mibTreeDeleteAt, modify_eq_set_getElem?]
  simp

/-- The instance nodes of a group without those at and below a path. -/
theorem filter_registered (hl : ∀ s ∈ l, s.1 < x) (hr : ∀ s ∈ r, x < s.1) (p : Oid) :
    (registered (.group (l ++ (x, n) :: r))).filter (fun e => ¬ x :: p <+: e.1) =
      registeredSubs l ++
        (((registered n).filter fun e => ¬ p <+: e.1).map fun e => (x :: e.1, e.2)) ++
        registeredSubs r := by
  have hkeep : ∀ subs : List (UInt32 × MibNode), (∀ s ∈ subs, s.1 ≠ x) →
      (registeredSubs subs).filter (fun e => ¬ x :: p <+: e.1) = registeredSubs subs := by
    intro subs hs
    refine filter_eq_self.mpr fun e he => ?_
    simpa using ne_of_mem_registeredSubs hs he p
  rw [registered, registeredSubs_append, registeredSubs, registeredSub, filter_append,
    filter_append, hkeep l fun s hs => (hl s hs).ne, hkeep r fun s hs => (hr s hs).ne',
    filter_map, append_assoc]
  congr 4
  funext e
  simp

end Delete

/-- **What the search for a node finds:** the node at the OID, or an instance node one
sub-identifier above it. The instance nodes at and below the path of that node are then
deleted. -/
theorem nodeSearch_cases (hwf : tree.Wf d) (oid : Oid) :
    (∃ is p node, mibTreeNodeSearch oid tree = some is ∧ Leads tree p node ∧
        (is = [] ↔ p = []) ∧ (p = oid ∨ ∃ x callback, oid = p ++ [x] ∧ node = .inst callback) ∧
        (p ≠ [] → registered (mibTreeDeleteAt is tree) =
          (registered tree).filter fun e => ¬ p <+: e.1)) ∨
      (mibTreeNodeSearch oid tree = none ∧ (∀ node, ¬ Leads tree oid node) ∧
        ∀ callback, (oid.dropLast, callback) ∉ registered tree) := by
  induction oid generalizing tree d with
  | nil => exact .inl ⟨[], [], tree, by simp [mibTreeNodeSearch], .here, by simp, by simp, by simp⟩
  | cons x rest ih =>
    cases tree with
    | inst cb =>
      -- an instance node is also found one sub-identifier below it
      cases rest with
      | nil =>
        exact .inl ⟨[], [], .inst cb, by simp [mibTreeNodeSearch], .here, by simp,
          .inr ⟨x, cb, rfl, rfl⟩, by simp⟩
      | cons y rest =>
        refine .inr ⟨by simp [mibTreeNodeSearch], fun node h => ?_, fun callback h => ?_⟩
        · cases h
        · simp [registered] at h
    | group subs =>
      obtain ⟨-, hs, hsubs⟩ := wf_group_iff.mp hwf
      rcases subs_lookup hs x with ⟨l, n, r, rfl, hl, hr, -⟩ | ⟨l, r, rfl, hl, hr, hi⟩
      · rw [nodeSearch_present hl hr]
        rcases ih (hsubs (x, n) (by simp)) with
          ⟨is, p, node, hfound, hleads, hnil, hp, hdel⟩ | ⟨hfound, hno, hreg⟩
        · refine .inl ⟨l.length :: is, x :: p, node, by simp [hfound],
            (leads_present_iff hl hr).mpr hleads, by simp, ?_, fun _ => ?_⟩
          · rcases hp with rfl | ⟨y, callback, rfl, hnode⟩
            · exact .inl rfl
            · exact .inr ⟨y, callback, rfl, hnode⟩
          · rw [filter_registered hl hr]
            cases is with
            | nil =>
              obtain rfl := hnil.mp rfl
              simp [deleteAt_entry, registered]
            | cons j is =>
              have hne : p ≠ [] := fun h => absurd (hnil.mpr h) (by simp)
              rw [deleteAt_below, ← hdel hne]
              simp [registered, registeredSubs, registeredSub]
        · refine .inr ⟨by simp [hfound], fun node h => ?_, fun callback h => ?_⟩
          · exact hno node ((leads_present_iff hl hr).mp h)
          · cases rest with
            | nil => exact hno n .here
            | cons y rest =>
              obtain ⟨y', m, q, hy, heq, hq⟩ := mem_registeredSubs_iff.mp h
              rw [dropLast_cons_cons] at heq
              obtain ⟨rfl, rfl⟩ := List.cons.inj heq
              obtain rfl := eq_of_mem_subs hs hy (by simp : (x, n) ∈ l ++ (x, n) :: r)
              exact hreg callback hq
      · refine .inr ⟨nodeSearch_missing hi rest, fun node => not_leads_missing hl hr, ?_⟩
        intro callback h
        obtain ⟨y, m, q, hy, heq, -⟩ := mem_registeredSubs_iff.mp h
        cases rest with
        | nil => cases heq
        | cons z rest =>
          rw [dropLast_cons_cons] at heq
          obtain ⟨rfl, -⟩ := List.cons.inj heq
          exact not_leads_missing hl hr (.down hy .here)

/-- **Unregistering** removes exactly the registered OIDs that extend its OID, if and only if no
instance node lies exactly one sub-identifier above it. -/
theorem mibNodeUnreg_exact_iff {tree : MibNode} (hr : tree.Reachable) {oid : Oid} (hne : oid ≠ []) :
    registered (mibNodeUnreg tree oid) = (registered tree).filter (fun e => ¬ oid <+: e.1) ↔
      ∀ callback, (oid.dropLast, callback) ∉ registered tree := by
  have hwf := hr.wf
  obtain ⟨z, x, rfl⟩ : ∃ z x, oid = z ++ [x] := ⟨_, _, (dropLast_append_getLast hne).symm⟩
  rw [dropLast_concat, mibNodeUnreg]
  rcases nodeSearch_cases hwf (z ++ [x]) with
    ⟨is, p, node, hfound, hleads, hnil, hp, hdel⟩ | ⟨hfound, hno, hreg⟩
  · simp only [hfound]
    rcases hp with rfl | ⟨y, callback, heq, rfl⟩
    · refine iff_of_true (hdel hne) fun callback hz => ?_
      have := hleads.registered_above hwf hz (prefix_append z [x])
      simp at this
    · -- the instance node above the OID is deleted
      obtain ⟨rfl, -⟩ := append_inj' heq rfl
      have hz : (z, callback) ∈ registered tree := by
        simpa using (hleads.registered_iff hwf [] callback).mpr (by simp [registered])
      have hzne : z ≠ [] := by
        rintro rfl
        have hgroup := hr.isGroup
        cases hleads
        cases hgroup
      refine iff_of_false (fun heq' => ?_) fun hall => hall callback hz
      have hmem : (z, callback) ∈ (registered tree).filter (fun e => ¬ z ++ [x] <+: e.1) := by
        refine mem_filter.mpr ⟨hz, ?_⟩
        have hlong : ¬ z ++ [x] <+: z := fun hpre => by
          have := hpre.length_le
          simp at this
        simpa using hlong
      rw [← heq', hdel hzne] at hmem
      simpa using (mem_filter.mp hmem).2
  · simp only [hfound]
    rw [dropLast_concat] at hreg
    refine iff_of_true (filter_eq_self.mpr ?_).symm hreg
    rintro ⟨q, callback⟩ hq
    have hnot : ¬ z ++ [x] <+: q := by
      rintro ⟨t, rfl⟩
      obtain ⟨m, hm⟩ := (leads_of_registered hwf hq).above
      exact hno m hm
    simpa using hnot

/-- A tree with the instance node `1.3`: unregistering `1.3.5`, under which nothing is registered,
removes it. -/
theorem unreg_removes_above :
    let tree := (mibNodeReg (.group []) [1, 3] 0).2
    registered tree = [([1, 3], 0)] ∧ registered (mibNodeUnreg tree [1, 3, 5]) = [] := by
  decide

/-- Unregistering the instance node `1.3` itself. -/
theorem unreg_exact_oneNode :
    let tree := (mibNodeReg (.group []) [1, 3] 0).2
    tree.Reachable ∧ ([1, 3] : Oid) ≠ [] ∧
      registered (mibNodeUnreg tree [1, 3]) =
        (registered tree).filter (fun e => ¬ [1, 3] <+: e.1) := by
  refine ⟨.reg [1, 3] 0 .init, by simp, (mibNodeUnreg_exact_iff (.reg [1, 3] 0 .init)
    (by simp)).mpr ?_⟩
  intro callback h
  have hreg : registered (mibNodeReg (.group []) [1, 3] 0).2 = [([1, 3], 0)] := by decide
  simp [hreg] at h

/-! ### Undoing a registration -/

/-- After an insertion the node at the OID is found, and its deletion leaves the group above it
in the tree; where that group was there before, the tree is the former one. -/
theorem deleteAt_insert {tree' : MibNode} (hwf : tree.Wf d)
    (h : mibTreeInstanceInsert callback oid tree = some tree') :
    ∃ i is, mibTreeNodeSearch oid tree' = some (i :: is) ∧
      (∃ node, Leads (mibTreeDeleteAt (i :: is) tree') oid.dropLast node) ∧
      ((∃ node, Leads tree oid.dropLast node) → mibTreeDeleteAt (i :: is) tree' = tree) := by
  induction oid generalizing tree tree' d with
  | nil => simp [mibTreeInstanceInsert] at h
  | cons x rest ih =>
    cases tree with
    | inst cb => simp [mibTreeInstanceInsert] at h
    | group subs =>
      obtain ⟨-, hs, hsubs⟩ := wf_group_iff.mp hwf
      rcases subs_lookup hs x with ⟨l, n, r, rfl, hl, hr, -⟩ | ⟨l, r, rfl, hl, hr, hi⟩
      · rw [instanceInsert_present hl hr] at h
        obtain ⟨n', hn', rfl⟩ := Option.map_eq_some_iff.mp h
        obtain ⟨j, is, hfound, ⟨m, hm⟩, hback⟩ := ih (hsubs (x, n) (by simp)) hn'
        obtain ⟨y, rest, rfl⟩ : ∃ y rest', rest = y :: rest' := by
          cases rest with
          | nil => simp [mibTreeInstanceInsert] at hn'
          | cons y rest => exact ⟨y, rest, rfl⟩
        rw [nodeSearch_present hl hr, hfound, dropLast_cons_cons]
        refine ⟨l.length, j :: is, rfl, ⟨m, ?_⟩, ?_⟩
        · rw [deleteAt_below]
          exact (leads_present_iff hl hr).mpr hm
        · rintro ⟨node, hnode⟩
          rw [deleteAt_below, hback ⟨node, (leads_present_iff hl hr).mp hnode⟩]
      · rw [instanceInsert_missing hl hr hi] at h
        obtain rfl := Option.some.inj h
        rw [nodeSearch_present hl hr]
        cases rest with
        | nil =>
          exact ⟨l.length, [], by simp [mibTreeNodeSearch], ⟨_, .here⟩,
            fun _ => deleteAt_entry⟩
        | cons y rest =>
          -- the groups on the way are new, so the group above was not in the tree
          have hraw : MibNode.Wf d (.group []) := wf_nil (wf_group_iff.mp hwf).1
          obtain ⟨j, is, hfound, ⟨m, hm⟩, -⟩ := ih hraw (instanceInsert_raw callback y rest)
          rw [hfound, dropLast_cons_cons]
          refine ⟨l.length, j :: is, rfl, ⟨m, ?_⟩, ?_⟩
          · rw [deleteAt_below]
            exact (leads_present_iff hl hr).mpr hm
          · rintro ⟨node, hnode⟩
            exact absurd hnode (not_leads_missing hl hr)

/-- The operations on a tree that a manager or a module can see the outcome of. -/
inductive TreeCall where
  | reg (oid : Oid) (callback : Int)
  | unreg (oid : Oid)
  | get (view oid : Oid) (ret : OidSearchRes)
  | getnext (view oid : Oid) (ret : OidSearchRes)

/-- What is seen: the return code of a registration, or the result of a search, `none` when the
agent has ended. -/
inductive TreeAnswer where
  | code (code : Int)
  | done
  | found (ret : Option OidSearchRes)
deriving DecidableEq

/-- One operation on the arrays and the world of the handlers; `none` when the counters of 16 bits
do not keep up with a registration any more. -/
def TreeCall.answer {σ : Type} (h : Handlers σ) (tree : ArrayNode) (w : World Event σ) :
    TreeCall → Option (TreeAnswer × ArrayNode × World Event σ)
  | .reg oid callback =>
    let r := wordNodeReg tree oid callback
    if ∀ a ∈ r.1, a.Sound then some (.code r.2.1, r.2.2, w) else none
  | .unreg oid => some (.done, arrayNodeUnreg tree oid, w)
  | .get view oid ret =>
    let (r, w') := mibTreeSearch h tree.toNode view oid { ret with request := .get } w
    some (.found (r.map Prod.snd), tree, w')
  | .getnext view oid ret =>
    let (r, w') := mibTreeSearchNext h tree.toNode view oid { ret with request := .getnext } w
    some (.found r, tree, w')

/-- The answers to a sequence of operations. -/
def treeAnswers {σ : Type} (h : Handlers σ) :
    List TreeCall → ArrayNode → World Event σ → List TreeAnswer
  | [], _, _ => []
  | call :: calls, tree, w =>
    match call.answer h tree w with
    | none => []
    | some (answer, tree', w') => answer :: treeAnswers h calls tree' w'

/-- No later sequence of operations tells the trees apart, whatever the handlers are. -/
def Indistinguishable (tree₁ tree₂ : ArrayNode) : Prop :=
  ∀ {σ : Type} (h : Handlers σ) (w : World Event σ) (calls : List TreeCall),
    treeAnswers h calls tree₁ w = treeAnswers h calls tree₂ w

/-- **The spare elements of the arrays are not seen**: trees of the same pairs answer alike,
also where one of them has grown before. -/
theorem ArrayNode.InCapacity.indistinguishable {tree₁ tree₂ : ArrayNode} (h₁ : InCapacity tree₁)
    (h₂ : InCapacity tree₂) (heq : tree₁.toNode = tree₂.toNode) :
    Indistinguishable tree₁ tree₂ := by
  intro σ h w calls
  induction calls generalizing tree₁ tree₂ w with
  | nil => rfl
  | cons call calls ih =>
    cases call with
    | reg oid callback =>
      by_cases hmost : (mibNodeReg tree₁.toNode oid callback).2.AtMost maxSiblings
      · obtain ⟨hsound₁, hcode₁, htree₁, hnext₁⟩ := h₁.registers hmost
        obtain ⟨hsound₂, hcode₂, htree₂, hnext₂⟩ := h₂.registers (heq ▸ hmost)
        rw [heq] at hcode₁ htree₁
        simp only [treeAnswers, TreeCall.answer, if_pos hsound₁, if_pos hsound₂, hcode₁, hcode₂,
          ih hnext₁ hnext₂ (htree₁.trans htree₂.symm)]
      · have hno₁ := h₁.overruns hmost
        have hno₂ := h₂.overruns (heq ▸ hmost)
        simp only [treeAnswers, TreeCall.answer, if_neg hno₁, if_neg hno₂]
    | unreg oid =>
      have htree : (arrayNodeUnreg tree₁ oid).toNode = (arrayNodeUnreg tree₂ oid).toNode := by
        rw [(h₁.paired.nodeUnreg h₁.reachable.wf oid).1,
          (h₂.paired.nodeUnreg h₂.reachable.wf oid).1, heq]
      simp only [treeAnswers, TreeCall.answer, ih (h₁.nodeUnreg oid) (h₂.nodeUnreg oid) htree]
    | get view oid ret | getnext view oid ret =>
      simp only [treeAnswers, TreeCall.answer, heq, ih h₁ h₂ heq]

theorem ArrayNode.InCapacity.distinguishable {tree₁ tree₂ : ArrayNode} (h₁ : InCapacity tree₁)
    (h₂ : InCapacity tree₂) (h1 : 1 ≤ oid.length) (h64 : oid.length ≤ asn1OidMaxLen)
    (hno : ¬Vacant tree₁.toNode oid) (hvac : Vacant tree₂.toNode oid) :
    ¬Indistinguishable tree₁ tree₂ := by
  intro hsame
  have hcodes := hsame (σ := Unit) ⟨fun _ _ _ _ st => (.fail, st)⟩ ⟨(), []⟩ [.reg oid 0]
  have hfails := mibNodeReg_registers h₁.reachable.wf h1 h64 0
  have hunchanged := hfails.unchanged (hfails.succeeds.not.mpr hno)
  have hmost₁ : (mibNodeReg tree₁.toNode oid 0).2.AtMost maxSiblings := by
    rw [hunchanged]
    exact h₁.most
  obtain ⟨hsound₁, hcode₁, -⟩ := h₁.registers hmost₁
  rw [hunchanged] at hcode₁
  simp only [treeAnswers, TreeCall.answer, if_pos hsound₁, hcode₁] at hcodes
  by_cases hmost : (mibNodeReg tree₂.toNode oid 0).2.AtMost maxSiblings
  · obtain ⟨hsound₂, hcode₂, -⟩ := h₂.registers hmost
    have hzero := (mibNodeReg_registers h₂.reachable.wf h1 h64 0).succeeds.mpr hvac
    simp [if_pos hsound₂, hcode₂, hzero] at hcodes
  · simp [if_neg (h₂.overruns hmost)] at hcodes

/-- What a successful registration did. -/
theorem mibNodeReg_eq_zero (h : (mibNodeReg tree oid callback).1 = 0) :
    oid ≠ [] ∧ oid.length ≤ asn1OidMaxLen ∧
      mibTreeInstanceInsert callback oid tree = some (mibNodeReg tree oid callback).2 := by
  rw [mibNodeReg] at h ⊢
  split at h
  · cases h
  · next h0 =>
      split at h
      · cases h
      · next hlong =>
          rw [if_neg h0, if_neg hlong]
          cases hins : mibTreeInstanceInsert callback oid tree with
          | none => simp [hins] at h
          | some tree' => exact ⟨fun hnil => h0 (by simp [hnil]), not_lt.mp hlong, rfl⟩

/-- **Undoing a registration** in the tree of pairs gives the former tree back, or leaves a group
at an OID that was vacant before. -/
theorem nodeUnreg_nodeReg (hwf : tree.Wf asn1OidMaxLen)
    (hreg : (mibNodeReg tree oid callback).1 = 0) :
    ((∃ node, Leads tree oid.dropLast node) →
        mibNodeUnreg (mibNodeReg tree oid callback).2 oid = tree) ∧
      ((¬∃ node, Leads tree oid.dropLast node) → 1 ≤ oid.dropLast.length ∧
        oid.dropLast.length ≤ asn1OidMaxLen ∧ Vacant tree oid.dropLast ∧
        ¬Vacant (mibNodeUnreg (mibNodeReg tree oid callback).2 oid) oid.dropLast) := by
  obtain ⟨hne, hlen, hins⟩ := mibNodeReg_eq_zero hreg
  obtain ⟨i, is, hfound, ⟨m, hm⟩, hback⟩ := deleteAt_insert hwf hins
  have hunreg : mibNodeUnreg (mibNodeReg tree oid callback).2 oid =
      mibTreeDeleteAt (i :: is) (mibNodeReg tree oid callback).2 := by
    rw [mibNodeUnreg, hfound]
  rw [hunreg]
  refine ⟨hback, fun hno => ?_⟩
  have hvac : Vacant tree oid := (instanceInsert_isSome_iff callback hwf).mp (by rw [hins]; rfl)
  have hdrop : oid.dropLast <+: oid := dropLast_prefix oid
  have hroot : oid.dropLast ≠ [] := fun hnil => hno ⟨tree, hnil ▸ .here⟩
  refine ⟨length_pos_of_ne_nil hroot, hdrop.length_le.trans hlen, ⟨?_, ?_⟩,
    fun hv => hv.1 m hm⟩
  · exact fun node hnode => hno ⟨node, hnode⟩
  · rintro p cb hp ⟨hpre, -⟩
    refine hvac.2 p cb hp ⟨hpre.trans hdrop, fun he => ?_⟩
    have hle := (he ▸ hpre : oid <+: oid.dropLast).length_le
    have hpos := length_pos_of_ne_nil hne
    rw [length_dropLast] at hle
    omega

/-- **Unregister undoes register**, in trees whose groups have never had more than 47421 sub-nodes,
if and only if the group right above the OID was there before the registration. -/
theorem unreg_undoes_reg_iff {ops : List TreeOp} {oid : Oid} {callback : Int}
    (h : WithinCapacity (ops ++ [.reg oid callback]))
    (hreg : (wordNodeReg (wordRun mibInit ops).2 oid callback).2.1 = 0) :
    Indistinguishable (wordRun mibInit (ops ++ [.reg oid callback, .unreg oid])).2
        (wordRun mibInit ops).2 ↔
      ∃ node, Leads (wordRun mibInit ops).2.toNode oid.dropLast node := by
  obtain ⟨hops, hmost⟩ := h.of_reg
  have hcap := hops.inCapacity
  have hwf := hcap.reachable.wf
  obtain ⟨-, hcode, htree, hnext⟩ := hcap.registers hmost
  rw [wordRun_append]
  simp only [wordRun, wordApply]
  generalize (wordRun mibInit ops).2 = tree at *
  obtain ⟨hback, hgroup⟩ := nodeUnreg_nodeReg hwf (hcode ▸ hreg)
  have hundone := hnext.nodeUnreg oid
  have hnode : (arrayNodeUnreg (wordNodeReg tree oid callback).2.2 oid).toNode =
      mibNodeUnreg (mibNodeReg tree.toNode oid callback).2 oid := by
    rw [(hnext.paired.nodeUnreg hnext.reachable.wf oid).1, htree]
  constructor
  · -- registering the OID of the group above tells the trees apart
    intro hsame
    by_contra hno
    obtain ⟨h1, h64, hbefore, hafter⟩ := hgroup hno
    rw [← hnode] at hafter
    exact hundone.distinguishable hcap h1 h64 hafter hbefore hsame
  · exact fun hparent => hundone.indistinguishable hcap (hnode.trans (hback hparent))

/-- Registering `1.3` in the empty tree and unregistering it leaves a group at `1`: the OID `1`,
which could be registered before, can no more. -/
theorem unreg_leaves_group :
    let tree' := (wordRun mibInit [.reg [1, 3] 0, .unreg [1, 3]]).2
    (wordNodeReg mibInit [1, 3] 0).2.1 = 0 ∧ (wordNodeReg mibInit [1] 0).2.1 = 0 ∧
      (wordNodeReg tree' [1] 0).2.1 = -1 := by
  decide

/-- With `1.3` registered, registering `1.4` and unregistering it is not seen any more, though the
arrays of the group at `1` have grown. -/
theorem unreg_undoes_secondNode :
    let ops : List TreeOp := [.reg [1, 3] 0]
    WithinCapacity (ops ++ [.reg [1, 4] 7]) ∧
      (wordNodeReg (wordRun mibInit ops).2 [1, 4] 7).2.1 = 0 ∧
      Indistinguishable (wordRun mibInit (ops ++ [.reg [1, 4] 7, .unreg [1, 4]])).2
        (wordRun mibInit ops).2 := by
  have hops : WithinCapacity ([.reg [1, 3] 0] ++ [.reg [1, 4] 7]) :=
    withinCapacity_of_sound (by decide)
  exact ⟨hops, by decide, (unreg_undoes_reg_iff hops (by decide)).mpr
    ⟨_, .down mem_cons_self .here⟩⟩

end SmithSnmp
