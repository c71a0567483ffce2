import SmithSnmp.Oid

/-!
# The MIB Tree

The registration side of `core/mib_tree.c`. A group node holds the parallel arrays
`sub_id` and `sub_ptr`, here one list of pairs; an instance node holds the reference of a
Lua handler. The child arrays are seen as sequences of any length; the functions on the arrays
with `sub_id_cap` and `sub_id_cnt` of 16 bits are in `SmithSnmp.MibCapacity`, and agree with
these as long as no group has more than 47421 sub-nodes.

`mibNodeReg` and `mibNodeUnreg` are the two ways in which the tree changes. A tree is
`Reachable` when it results from the empty root node of `mib_init` by a sequence of these.

## Main results

* `MibNode.Reachable.wf`: in every reachable tree the sub-identifiers of a group are
  strictly increasing and no path is longer than `ASN1_OID_MAX_LEN`.
* `MibNode.Reachable.isGroup`: the root is a group node.
-/

namespace SmithSnmp

open List
open Option hiding mem_map

variable {callback : Int} {d : ℕ}

/-- `struct mib_group_node` and `struct mib_instance_node`. -/
inductive MibNode where
  | group (subs : List (UInt32 × MibNode))
  | inst (callback : Int)

/-- `gn->sub_id` with its first `gn->sub_id_cnt` entries. -/
def subIds (subs : List (UInt32 × MibNode)) : List UInt32 := subs.map Prod.fst

/-- `is_raw_group`: a group without sub-nodes, whose first array entry is then zero. -/
def isRawGroup (subs : List (UInt32 × MibNode)) : Bool := subs.isEmpty

/-- `group_node_expand` and the writes after it: a new entry at `index`, in arrays that are always
large enough (`ChildArrays.wordExpand` has their counters of 16 bits). -/
def groupNodeExpand (subs : List (UInt32 × MibNode)) (index : ℕ) (s : UInt32 × MibNode) :
    List (UInt32 × MibNode) :=
  subs.take index ++ s :: subs.drop index

/-- `group_node_shrink`: the entry at `index` is dropped. -/
def groupNodeShrink (subs : List (UInt32 × MibNode)) (index : ℕ) : List (UInt32 × MibNode) :=
  subs.eraseIdx index

/-- `mib_tree_instance_insert`: descend along the OID, creating group nodes where there are
none, and put an instance node at its end. `none` is the bad traversal, on which the
source returns `NULL` before it has changed anything. -/
def mibTreeInstanceInsert (callback : Int) : Oid → MibNode → Option MibNode
  | [], _ => none
  | _ :: _, .inst _ => none
  | x :: rest, .group subs =>
    -- the node allocated for the first missing sub-identifier
    let child := if rest.length = 0 then some (.inst callback)
      else mibTreeInstanceInsert callback rest (.group [])
    if isRawGroup subs then child.map fun c => .group [(x, c)]
    else
      let i := oidBinarySearch (subIds subs) x
      if 0 ≤ i then
        match subs[i.toNat]? with
        | some (id, node) =>
          (mibTreeInstanceInsert callback rest node).map fun n =>
            .group (subs.set i.toNat (id, n))
        | none => none
      else child.map fun c => .group (groupNodeExpand subs (-i - 1).toNat (x, c))

/-- `mib_node_reg`: the return code and the tree (`wordNodeReg` on the arrays themselves). -/
def mibNodeReg (tree : MibNode) (oid : Oid) (callback : Int) : Int × MibNode :=
  if oid.length = 0 then (-1, tree)
  else if oid.length > asn1OidMaxLen then (-1, tree)
  else match mibTreeInstanceInsert callback oid tree with
    | none => (-1, tree)
    | some tree' => (0, tree')

/-- `mib_tree_node_search`: the node at the OID, given by the child indices that lead to
it; the last one is `pair->sub_idx` and the others lead to `pair->parent`. An instance
node is also found when exactly one sub-identifier is left over. -/
def mibTreeNodeSearch : Oid → MibNode → Option (List ℕ)
  | [], _ => some []
  | x :: rest, .group subs =>
    let i := oidBinarySearch (subIds subs) x
    if 0 ≤ i then
      match subs[i.toNat]? with
      | some (_, node) => (mibTreeNodeSearch rest node).map (i.toNat :: ·)
      | none => none
    else none
  | _ :: rest, .inst _ => if rest.length = 0 then some [] else none

/-- `__mib_tree_delete`: the sub-tree at the end of the child indices is taken out of its
parent. The dummy root node cannot be deleted. -/
def mibTreeDeleteAt : List ℕ → MibNode → MibNode
  | [], node => node
  | _ :: _, .inst callback => .inst callback
  | [i], .group subs => .group (groupNodeShrink subs i)
  | i :: j :: is, .group subs =>
    .group (subs.modify i fun s => (s.1, mibTreeDeleteAt (j :: is) s.2))

/-- `mib_node_unreg` -/
def mibNodeUnreg (tree : MibNode) (oid : Oid) : MibNode :=
  match mibTreeNodeSearch oid tree with
  | some is => mibTreeDeleteAt is tree
  | none => tree

namespace MibNode

/-- Trees that registrations and unregistrations can build from `mib_init`. -/
inductive Reachable : MibNode → Prop
  | init : Reachable (.group [])
  | reg {tree : MibNode} (oid : Oid) (callback : Int) :
      Reachable tree → Reachable (mibNodeReg tree oid callback).2
  | unreg {tree : MibNode} (oid : Oid) :
      Reachable tree → Reachable (mibNodeUnreg tree oid)

/-- The representation invariant: sub-identifiers strictly increase in every group, and
from this node on paths have at most the given length. -/
inductive Wf : ℕ → MibNode → Prop
  | inst {d : ℕ} {callback : Int} : Wf d (.inst callback)
  | group {d : ℕ} {subs : List (UInt32 × MibNode)} :
      (subIds subs).Pairwise (· < ·) → (∀ s ∈ subs, Wf d s.2) → Wf (d + 1) (.group subs)

/-- Whether the node is a group node. -/
def isGroup : MibNode → Bool
  | .group _ => true
  | .inst _ => false

theorem induct {motive : MibNode → Prop} (inst : ∀ callback, motive (.inst callback))
    (group : ∀ subs, (∀ s ∈ subs, motive s.2) → motive (.group subs)) (node : MibNode) :
    motive node := by
  refine @MibNode.rec motive (fun subs => ∀ s ∈ subs, motive s.2) (fun s => motive s.2)
    group inst ?_ ?_ ?_ node
  · intro s hs
    exact absurd hs not_mem_nil
  · intro s subs hs hsubs t ht
    rcases mem_cons.mp ht with rfl | ht
    · exact hs
    · exact hsubs t ht
  · intro _ _ h
    exact h

end MibNode

/-! ### Looking up a sub-identifier -/

variable {subs : List (UInt32 × MibNode)}

/-- **Lookup in a group.** Either the sub-identifier is there, with the smaller ones
before it, or it is missing; the binary search tells which. -/
theorem subs_lookup (hs : (subIds subs).Pairwise (· < ·)) (x : UInt32) :
    (∃ l n r, subs = l ++ (x, n) :: r ∧ (∀ s ∈ l, s.1 < x) ∧ (∀ s ∈ r, x < s.1) ∧
      oidBinarySearch (subIds subs) x = l.length) ∨
    (∃ l r, subs = l ++ r ∧ (∀ s ∈ l, s.1 < x) ∧ (∀ s ∈ r, x < s.1) ∧
      oidBinarySearch (subIds subs) x = -(l.length : Int) - 1) := by
  obtain ⟨l, r, rfl, hl, hr⟩ := exists_split Prod.fst hs x
  have hl' : ∀ y ∈ subIds l, y < x := by
    intro y hy
    obtain ⟨s, hsl, rfl⟩ := mem_map.mp hy
    exact hl s hsl
  cases r with
  | nil =>
    refine .inr ⟨l, [], rfl, hl, by simp, ?_⟩
    simpa [subIds] using oidBinarySearch_missing hl' (r := []) (by simp)
  | cons s r =>
    have hr' : ∀ t ∈ r, s.1 < t.1 := by
      intro t ht
      have := (pairwise_append.mp (by simpa [subIds] using hs)).2.1
      exact (pairwise_cons.mp this).1 t.1 (mem_map_of_mem ht)
    rcases eq_or_lt_of_le (not_lt.mp (hr s (by simp))) with hx | hx
    · refine .inl ⟨l, s.2, r, by simp [hx], hl, fun t ht => hx ▸ hr' t ht, ?_⟩
      have hr'' : ∀ y ∈ subIds r, x < y := by
        intro y hy
        obtain ⟨t, htr, rfl⟩ := mem_map.mp hy
        exact hx ▸ hr' t htr
      simpa [subIds, hx] using oidBinarySearch_found hl' hr''
    · have hall : ∀ t ∈ s :: r, x < t.1 := by
        intro t ht
        rcases mem_cons.mp ht with rfl | ht
        · exact hx
        · exact hx.trans (hr' t ht)
      refine .inr ⟨l, s :: r, rfl, hl, hall, ?_⟩
      have hr'' : ∀ y ∈ subIds (s :: r), x < y := by
        intro y hy
        obtain ⟨t, htr, rfl⟩ := mem_map.mp hy
        exact hall t htr
      simpa [subIds] using oidBinarySearch_missing hl' hr''

/-! ### The representation invariant -/

/-- The sub-identifiers of a split group, in order. -/
theorem pairwise_subIds_append {l r : List (UInt32 × MibNode)} :
    (subIds (l ++ r)).Pairwise (· < ·) ↔
      (subIds l).Pairwise (· < ·) ∧ (subIds r).Pairwise (· < ·) ∧
        ∀ s ∈ l, ∀ t ∈ r, s.1 < t.1 := by
  simp only [subIds, map_append, pairwise_append, mem_map]
  constructor
  · rintro ⟨hl, hr, hlr⟩
    exact ⟨hl, hr, fun s hs t ht => hlr _ ⟨s, hs, rfl⟩ _ ⟨t, ht, rfl⟩⟩
  · rintro ⟨hl, hr, hlr⟩
    refine ⟨hl, hr, ?_⟩
    rintro _ ⟨s, hs, rfl⟩ _ ⟨t, ht, rfl⟩
    exact hlr s hs t ht

/-- A new entry between the smaller and the greater ones keeps the order. -/
theorem pairwise_subIds_insert {l r : List (UInt32 × MibNode)} {x : UInt32} {n : MibNode}
    (hs : (subIds (l ++ r)).Pairwise (· < ·)) (hl : ∀ s ∈ l, s.1 < x)
    (hr : ∀ s ∈ r, x < s.1) : (subIds (l ++ (x, n) :: r)).Pairwise (· < ·) := by
  obtain ⟨hsl, hsr, hlr⟩ := pairwise_subIds_append.mp hs
  refine pairwise_subIds_append.mpr ⟨hsl, ?_, ?_⟩
  · refine pairwise_cons.mpr ⟨?_, hsr⟩
    intro y hy
    obtain ⟨s, hs, rfl⟩ := mem_map.mp hy
    exact hr s hs
  · intro s hs t ht
    rcases mem_cons.mp ht with rfl | ht
    · exact hl s hs
    · exact hlr s hs t ht

variable {tree : MibNode}

/-- What inserting an OID does to a group: a new child where the sub-identifier is
missing, an insertion below the child where it is present. -/
theorem mibTreeInstanceInsert_group {x : UInt32} {rest : Oid} (hs : (subIds subs).Pairwise (· < ·))
    (h : mibTreeInstanceInsert callback (x :: rest) (.group subs) = some tree) :
    (∃ l n n' r, subs = l ++ (x, n) :: r ∧ mibTreeInstanceInsert callback rest n = some n' ∧
      tree = .group (l ++ (x, n') :: r)) ∨
    (∃ l n' r, subs = l ++ r ∧ (∀ s ∈ l, s.1 < x) ∧ (∀ s ∈ r, x < s.1) ∧
      (rest = [] ∧ n' = .inst callback ∨
        rest ≠ [] ∧ mibTreeInstanceInsert callback rest (.group []) = some n') ∧
      tree = .group (l ++ (x, n') :: r)) := by
  have hchild : ∀ c, (if rest.length = 0 then some (.inst callback)
        else mibTreeInstanceInsert callback rest (.group [])) = some c →
      rest = [] ∧ c = .inst callback ∨
        rest ≠ [] ∧ mibTreeInstanceInsert callback rest (.group []) = some c := by
    intro c hc
    cases rest with
    | nil => exact .inl ⟨rfl, (some.inj hc).symm⟩
    | cons y rest => exact .inr ⟨by simp, by simpa using hc⟩
  rw [mibTreeInstanceInsert] at h
  by_cases hraw : isRawGroup subs = true
  · simp only [hraw, if_true, map_eq_some_iff] at h
    obtain ⟨c, hc, rfl⟩ := h
    obtain rfl : subs = [] := by simpa [isRawGroup] using hraw
    exact .inr ⟨[], c, [], rfl, by simp, by simp, hchild c hc, rfl⟩
  · simp only [hraw, Bool.false_eq_true, if_false] at h
    rcases subs_lookup hs x with ⟨l, n, r, rfl, -, -, hi⟩ | ⟨l, r, rfl, hl, hr, hi⟩
    · simp only [hi, Int.natCast_nonneg, if_true, Int.toNat_natCast] at h
      simp only [getElem?_append_right le_rfl, Nat.sub_self, getElem?_cons_zero,
        map_eq_some_iff] at h
      obtain ⟨n', hn', rfl⟩ := h
      exact .inl ⟨l, n, n', r, rfl, hn', by simp⟩
    · have hneg : ¬ (0 : Int) ≤ -(l.length : Int) - 1 := by omega
      simp only [hi, hneg, if_false, map_eq_some_iff] at h
      obtain ⟨c, hc, rfl⟩ := h
      refine .inr ⟨l, c, r, rfl, hl, hr, hchild c hc, ?_⟩
      simp [groupNodeExpand]

namespace MibNode

theorem wf_group_iff :
    Wf d (.group subs) ↔
      1 ≤ d ∧ (subIds subs).Pairwise (· < ·) ∧ ∀ s ∈ subs, Wf (d - 1) s.2 := by
  constructor
  · intro h
    cases h with
    | group hs hsubs => exact ⟨by omega, hs, hsubs⟩
  · rintro ⟨hd, hs, hsubs⟩
    obtain ⟨d, rfl⟩ : ∃ d', d = d' + 1 := ⟨d - 1, by omega⟩
    exact Wf.group hs hsubs

theorem wf_nil (hd : 1 ≤ d) : Wf d (.group []) :=
  wf_group_iff.mpr ⟨hd, by simp [subIds], by simp⟩

variable {node : MibNode}

/-- The bound on the paths can be weakened. -/
theorem Wf.mono {d' : ℕ} (hwf : Wf d node) (hd : d ≤ d') : Wf d' node := by
  induction hwf generalizing d' with
  | inst => exact Wf.inst
  | group hs _ ih =>
    exact wf_group_iff.mpr ⟨by omega, hs, fun s hmem => ih s hmem (by omega)⟩

/-- Insertion keeps the invariant, as long as the OID fits in the remaining length. -/
theorem Wf.instanceInsert {oid : Oid} (hwf : Wf d node) (hlen : oid.length ≤ d)
    (h : mibTreeInstanceInsert callback oid node = some tree) : Wf d tree := by
  induction oid generalizing d node tree with
  | nil => simp [mibTreeInstanceInsert] at h
  | cons x rest ih =>
    cases node with
    | inst cb => simp [mibTreeInstanceInsert] at h
    | group subs =>
      obtain ⟨hd, hs, hsubs⟩ := wf_group_iff.mp hwf
      have hlen' : rest.length ≤ d - 1 := by simp at hlen; omega
      rcases mibTreeInstanceInsert_group hs h with
        ⟨l, n, n', r, rfl, hn', rfl⟩ | ⟨l, n', r, rfl, hl, hr, hnew, rfl⟩
      · have hn : Wf (d - 1) n := hsubs (x, n) (by simp)
        refine wf_group_iff.mpr ⟨hd, ?_, ?_⟩
        · simpa [subIds] using hs
        · intro s hsm
          rcases mem_append.mp hsm with hsl | hsr
          · exact hsubs s (by simp [hsl])
          · rcases mem_cons.mp hsr with rfl | hsr
            · exact ih hn hlen' hn'
            · exact hsubs s (by simp [hsr])
      · have hn' : Wf (d - 1) n' := by
          rcases hnew with ⟨-, rfl⟩ | ⟨hne, hins⟩
          · exact Wf.inst
          · have hpos : 1 ≤ d - 1 := by
              have := length_pos_of_ne_nil hne
              omega
            exact ih (wf_nil hpos) hlen' hins
        refine wf_group_iff.mpr ⟨hd, pairwise_subIds_insert hs hl hr, ?_⟩
        intro s hsm
        rcases mem_append.mp hsm with hsl | hsr
        · exact hsubs s (by simp [hsl])
        · rcases mem_cons.mp hsr with rfl | hsr
          · exact hn'
          · exact hsubs s (by simp [hsr])

/-- Deletion keeps the invariant. -/
theorem Wf.deleteAt {is : List ℕ} (hwf : Wf d node) : Wf d (mibTreeDeleteAt is node) := by
  induction is generalizing d node with
  | nil => simpa [mibTreeDeleteAt] using hwf
  | cons i is ih =>
    cases node with
    | inst cb => simpa [mibTreeDeleteAt] using hwf
    | group subs =>
      obtain ⟨hd, hs, hsubs⟩ := wf_group_iff.mp hwf
      cases is with
      | nil =>
        rw [mibTreeDeleteAt]
        refine wf_group_iff.mpr ⟨hd, ?_, ?_⟩
        · exact hs.sublist ((eraseIdx_sublist subs i).map Prod.fst)
        · intro s hsm
          exact hsubs s (mem_of_mem_eraseIdx hsm)
      | cons j is =>
        rw [mibTreeDeleteAt]
        refine wf_group_iff.mpr ⟨hd, ?_, ?_⟩
        · have hids : subIds (subs.modify i fun s => (s.1, mibTreeDeleteAt (j :: is) s.2))
              = subIds subs := by
            apply ext_getElem
            · simp [subIds]
            · intro k h1 h2
              simp only [subIds, getElem_map, getElem_modify]
              split <;> rfl
          rw [hids]
          exact hs
        · intro s hsm
          obtain ⟨k, hk, rfl⟩ := mem_iff_getElem.mp hsm
          rw [getElem_modify]
          have hk' : k < subs.length := by simpa using hk
          have hold : Wf (d - 1) (subs[k]).2 := hsubs _ (getElem_mem hk')
          split
          · exact ih hold
          · exact hold

theorem isGroup_of_instanceInsert {oid : Oid}
    (h : mibTreeInstanceInsert callback oid node = some tree) : tree.isGroup = true := by
  cases oid with
  | nil => simp [mibTreeInstanceInsert] at h
  | cons x rest =>
    cases node with
    | inst cb => simp [mibTreeInstanceInsert] at h
    | group subs =>
      rw [mibTreeInstanceInsert] at h
      split at h
      · obtain ⟨c, -, rfl⟩ := map_eq_some_iff.mp h
        rfl
      · dsimp only at h
        split at h
        · split at h
          · obtain ⟨c, -, rfl⟩ := map_eq_some_iff.mp h
            rfl
          · cases h
        · obtain ⟨c, -, rfl⟩ := map_eq_some_iff.mp h
          rfl

theorem isGroup_deleteAt (is : List ℕ) (node : MibNode) :
    (mibTreeDeleteAt is node).isGroup = node.isGroup := by
  rcases is with _ | ⟨i, _ | ⟨j, is⟩⟩
  · rfl
  · cases node <;> rfl
  · cases node <;> rfl

theorem Reachable.isGroup (h : Reachable tree) : tree.isGroup = true := by
  induction h with
  | init => rfl
  | reg oid callback _ ih =>
    unfold mibNodeReg
    split
    · exact ih
    · split
      · exact ih
      · split
        · exact ih
        · next htree => exact isGroup_of_instanceInsert htree
  | unreg oid _ ih =>
    unfold mibNodeUnreg
    split
    · rw [isGroup_deleteAt]
      exact ih
    · exact ih

/-- **The representation invariant** holds in every reachable tree: registrations and
unregistrations keep it. -/
theorem Reachable.wf (h : Reachable tree) : Wf asn1OidMaxLen tree := by
  induction h with
  | init => exact wf_nil (by decide)
  | reg oid callback _ ih =>
    unfold mibNodeReg
    split
    · exact ih
    · split
      · exact ih
      · next hlen =>
          split
          · exact ih
          · next htree => exact ih.instanceInsert (not_lt.mp hlen) htree
  | unreg oid _ ih =>
    unfold mibNodeUnreg
    split
    · exact ih.deleteAt
    · exact ih

end MibNode

end SmithSnmp
