import Mathlib.Data.List.InsertIdx
import SmithSnmp.Lib.Shift
import SmithSnmp.MibTree

/-!
# The Child Arrays of the MIB Tree

The registration side of `core/mib_tree.c` with the arrays `sub_id` and `sub_ptr` as the
source allocates, copies and shifts them. The counters `sub_id_cnt` and `sub_id_cap` are
natural numbers here: what happens beyond 16 bits is the subject of `SmithSnmp.MibCapacity`.

`ArrayNode.toNode` reads the used entries of the arrays as one list of pairs. The functions
of `SmithSnmp.MibTree` are what the functions on arrays do under this reading, as long as the
arrays are in order (`ArrayNode.Ordered`).

## Main results

* `ArrayNode.Ordered.nodeReg`, `ArrayNode.Ordered.nodeUnreg`: registering and unregistering
  keep the arrays in order and refine `mibNodeReg` and `mibNodeUnreg`.
-/

namespace SmithSnmp

open List Lib
open Option hiding map_map

variable {i index d : ℕ} {oid : Oid}

/-! ### The arrays of a group -/

/-- The members of `struct mib_group_node`, over nodes of type `ν`; `none` is `NULL`. -/
structure ChildArrays (ν : Type) where
  subIdCap : ℕ
  subIdCnt : ℕ
  subId : List UInt32
  subPtr : List (Option ν)

namespace ChildArrays

variable {ν : Type}

/-- `alloc_nr` -/
def allocNr (x : ℕ) : ℕ := (x + 2) * 3 / 2

/-- `mib_group_node_new`, also the root node of `mib_dummy_node_init`. -/
def new : ChildArrays ν := { subIdCap := 1, subIdCnt := 0, subId := [0], subPtr := [none] }

/-- `is_raw_group` -/
def isRaw (g : ChildArrays ν) : Bool := g.subId.head? = some 0 ∧ g.subIdCnt = 0

/-- `group_node_expand`: room for a new entry at `index`. -/
def expand (g : ChildArrays ν) (index : ℕ) : ChildArrays ν :=
  if g.subIdCap < g.subIdCnt + 1 then
    -- resize and duplicate
    let cap := allocNr g.subIdCap
    { g with
      subIdCap := cap
      subId := spread index g.subId (List.replicate cap 0) g.subIdCnt
      subPtr := spread index g.subPtr (List.replicate cap none) g.subIdCnt }
  else
    -- without expanding
    { g with
      subId := shiftUp index (g.subIdCnt - index) g.subId
      subPtr := shiftUp index (g.subIdCnt - index) g.subPtr }

/-- A sub-node is written at `index` and counted. -/
def write (g : ChildArrays ν) (index : ℕ) (x : UInt32) (n : ν) : ChildArrays ν :=
  { g with
    subIdCnt := g.subIdCnt + 1
    subId := g.subId.set index x
    subPtr := g.subPtr.set index (some n) }

/-- `group_node_shrink` -/
def shrink (g : ChildArrays ν) (index : ℕ) : ChildArrays ν :=
  if 1 < g.subIdCnt then
    { g with
      subIdCnt := g.subIdCnt - 1
      subId := shiftDown (g.subIdCnt - 1 - index) index g.subId
      subPtr := shiftDown (g.subIdCnt - 1 - index) index g.subPtr }
  else
    { g with subIdCnt := 0, subId := g.subId.set 0 0, subPtr := g.subPtr.set 0 none }

/-- The used entries of `sub_id`. -/
def ids (g : ChildArrays ν) : List UInt32 := g.subId.take g.subIdCnt

/-- The used entries of `sub_ptr`. -/
def ptrs (g : ChildArrays ν) : List (Option ν) := g.subPtr.take g.subIdCnt

/-- The arrays in order: they are allocated with `sub_id_cap` elements, the first
`sub_id_cnt` of them are the sub-identifiers and nodes `subs`, and an empty group is raw. -/
structure Hold (g : ChildArrays ν) (subs : List (UInt32 × ν)) : Prop where
  cnt : g.subIdCnt = subs.length
  cap : g.subIdCnt ≤ g.subIdCap
  cap_pos : 0 < g.subIdCap
  lenId : g.subId.length = g.subIdCap
  lenPtr : g.subPtr.length = g.subIdCap
  ids : g.ids = subs.map Prod.fst
  ptrs : g.ptrs = subs.map (some ∘ Prod.snd)
  raw : g.subIdCnt = 0 → g.subId.head? = some 0

theorem hold_new : (new : ChildArrays ν).Hold [] := by
  refine ⟨rfl, by simp [new], by simp [new], rfl, rfl, rfl, rfl, fun _ => rfl⟩

namespace Hold

variable {g : ChildArrays ν} {subs : List (UInt32 × ν)}

/-- A group is raw exactly when it is empty. -/
theorem isRaw_iff (h : g.Hold subs) : g.isRaw = true ↔ subs = [] := by
  rw [isRaw, decide_eq_true_iff]
  constructor
  · rintro ⟨-, hcnt⟩
    exact length_eq_zero_iff.mp (h.cnt ▸ hcnt)
  · rintro rfl
    exact ⟨h.raw h.cnt, h.cnt⟩

/-- The node at an index. -/
theorem subPtr_get (h : g.Hold subs) (hi : i < subs.length) :
    g.subPtr[i]? = some (some (subs[i]).2) := by
  have hget : g.ptrs[i]? = (subs.map (some ∘ Prod.snd))[i]? := by rw [h.ptrs]
  rw [ChildArrays.ptrs, getElem?_take_of_lt (by rw [h.cnt]; exact hi)] at hget
  rw [hget]
  simp [hi]

/-- The first entry of a raw group. -/
theorem write_raw (h : g.Hold []) (x : UInt32) (n : ν) : (g.write 0 x n).Hold [(x, n)] := by
  have hcnt : g.subIdCnt = 0 := h.cnt
  obtain ⟨y, ys, hids⟩ := exists_cons_of_length_pos (h.lenId ▸ h.cap_pos)
  obtain ⟨p, ps, hptrs⟩ := exists_cons_of_length_pos (h.lenPtr ▸ h.cap_pos)
  have hlenId := h.lenId
  have hlenPtr := h.lenPtr
  have hpos := h.cap_pos
  exact {
    cnt := by simp [write, hcnt]
    cap := by simp [write, hcnt]; omega
    cap_pos := hpos
    lenId := by simpa [write] using hlenId
    lenPtr := by simpa [write] using hlenPtr
    ids := by simp [write, ChildArrays.ids, hcnt, hids]
    ptrs := by simp [write, ChildArrays.ptrs, hcnt, hptrs]
    raw := by simp [write] }

/-- A new entry between the entries before `index` and the others. -/
theorem write_expand (h : g.Hold subs) (hi : index ≤ subs.length) (x : UInt32) (n : ν) :
    ((g.expand index).write index x n).Hold (subs.take index ++ (x, n) :: subs.drop index) := by
  have hcnt := h.cnt
  have hids := h.ids
  have hptrs := h.ptrs
  have hlen : (subs.take index ++ (x, n) :: subs.drop index).length = subs.length + 1 := by
    simp
    omega
  have hmap : ∀ {β : Type} (f : UInt32 × ν → β),
      (subs.take index ++ (x, n) :: subs.drop index).map f =
        (subs.map f).take index ++ f (x, n) :: (subs.map f).drop index := by
    intro β f
    simp [map_take, map_drop]
  by_cases hcap : g.subIdCap < g.subIdCnt + 1
  · -- the arrays are full and are copied into larger ones
    have hnew : g.subIdCnt < allocNr g.subIdCap := by
      have := h.cap
      rw [allocNr]
      omega
    have heq : (g.expand index).write index x n =
        { subIdCap := allocNr g.subIdCap
          subIdCnt := g.subIdCnt + 1
          subId := (spread index g.subId (List.replicate (allocNr g.subIdCap) 0)
            g.subIdCnt).set index x
          subPtr := (spread index g.subPtr (List.replicate (allocNr g.subIdCap) none)
            g.subIdCnt).set index (some n) } := by
      rw [expand, if_pos hcap]
      rfl
    rw [heq]
    exact {
      cnt := by rw [hlen, ← hcnt]
      cap := hnew
      cap_pos := Nat.zero_lt_of_lt hnew
      lenId := by simp
      lenPtr := by simp
      ids := by
        rw [hmap, ← hids]
        exact take_spread_set (hcnt ▸ hi) (h.lenId ▸ h.cap) (by simpa using hnew) x
      ptrs := by
        rw [hmap, ← hptrs]
        exact take_spread_set (hcnt ▸ hi) (h.lenPtr ▸ h.cap) (by simpa using hnew) (some n)
      raw := fun h0 => by cases h0 }
  · have heq : (g.expand index).write index x n =
        { subIdCap := g.subIdCap
          subIdCnt := g.subIdCnt + 1
          subId := (shiftUp index (g.subIdCnt - index) g.subId).set index x
          subPtr := (shiftUp index (g.subIdCnt - index) g.subPtr).set index (some n) } := by
      rw [expand, if_neg hcap]
      rfl
    rw [heq]
    have hroom : g.subIdCnt < g.subIdCap := by omega
    exact {
      cnt := by rw [hlen, ← hcnt]
      cap := hroom
      cap_pos := h.cap_pos
      lenId := by simpa using h.lenId
      lenPtr := by simpa using h.lenPtr
      ids := by
        rw [hmap, ← hids]
        exact take_shiftUp_set (hcnt ▸ hi) (h.lenId ▸ hroom) x
      ptrs := by
        rw [hmap, ← hptrs]
        exact take_shiftUp_set (hcnt ▸ hi) (h.lenPtr ▸ hroom) (some n)
      raw := fun h0 => by cases h0 }

/-- The entry at `index` is gone. -/
theorem shrink (h : g.Hold subs) (hi : index < subs.length) :
    (g.shrink index).Hold (subs.eraseIdx index) := by
  have hcnt := h.cnt
  have hlen : (subs.eraseIdx index).length = subs.length - 1 := length_eraseIdx_of_lt hi
  by_cases hone : 1 < g.subIdCnt
  · have heq : g.shrink index =
        { g with
          subIdCnt := g.subIdCnt - 1
          subId := shiftDown (g.subIdCnt - 1 - index) index g.subId
          subPtr := shiftDown (g.subIdCnt - 1 - index) index g.subPtr } := by
      rw [ChildArrays.shrink, if_pos hone]
    rw [heq]
    exact {
      cnt := by rw [hlen, ← hcnt]
      cap := by have := h.cap; dsimp only; omega
      cap_pos := h.cap_pos
      lenId := by simpa using h.lenId
      lenPtr := by simpa using h.lenPtr
      ids := by
        rw [← eraseIdx_map, ← h.ids]
        exact take_shiftDown (hcnt ▸ hi) (h.lenId ▸ h.cap)
      ptrs := by
        rw [← eraseIdx_map, ← h.ptrs]
        exact take_shiftDown (hcnt ▸ hi) (h.lenPtr ▸ h.cap)
      raw := fun h0 => by dsimp only at h0; omega }
  · -- the only entry: the group is raw again
    obtain ⟨s, rfl⟩ : ∃ s, subs = [s] := length_eq_one_iff.mp (by omega)
    obtain rfl : index = 0 := by simpa using hi
    obtain ⟨y, ys, hids⟩ := exists_cons_of_length_pos (h.lenId ▸ h.cap_pos)
    have heq : g.shrink 0 =
        { g with subIdCnt := 0, subId := g.subId.set 0 0, subPtr := g.subPtr.set 0 none } := by
      rw [ChildArrays.shrink, if_neg hone]
    rw [heq]
    exact {
      cnt := rfl
      cap := Nat.zero_le _
      cap_pos := h.cap_pos
      lenId := by simpa using h.lenId
      lenPtr := by simpa using h.lenPtr
      ids := rfl
      ptrs := rfl
      raw := fun _ => by simp [hids] }

/-- Another node at `index`. -/
theorem set (h : g.Hold subs) (hi : index < subs.length) (n : ν) :
    { g with subPtr := g.subPtr.set index (some n) }.Hold
      (subs.set index ((subs[index]).1, n)) := by
  have hids : (subs.set index ((subs[index]).1, n)).map Prod.fst = subs.map Prod.fst := by
    refine ext_getElem (by simp) fun k h₁ h₂ => ?_
    simp only [getElem_map, getElem_set]
    split
    · next hk => simp [hk]
    · rfl
  exact {
    cnt := by simpa using h.cnt
    cap := h.cap
    cap_pos := h.cap_pos
    lenId := h.lenId
    lenPtr := by simpa using h.lenPtr
    ids := by rw [hids]; exact h.ids
    ptrs := by
      rw [map_set, ← h.ptrs]
      simp [ChildArrays.ptrs, take_set]
    raw := h.raw }

end Hold

end ChildArrays

/-! ### The tree -/

/-- `struct mib_group_node` and `struct mib_instance_node`. -/
inductive ArrayNode where
  | group (arrays : ChildArrays ArrayNode)
  | inst (callback : Int)

/-- `mib_init` -/
def mibInit : ArrayNode := .group .new

/-- `mib_tree_instance_insert`; `none` is the bad traversal. -/
def arrayInstanceInsert (callback : Int) : Oid → ArrayNode → Option ArrayNode
  | [], _ => none
  | _ :: _, .inst _ => none
  | x :: rest, .group g =>
    let child := if rest.length = 0 then some (.inst callback)
      else arrayInstanceInsert callback rest (.group .new)
    if g.isRaw then child.map fun c => .group (g.write 0 x c)
    else
      let i := oidBinarySearch g.ids x
      if 0 ≤ i then
        match g.subPtr[i.toNat]? with
        | some (some node) =>
          (arrayInstanceInsert callback rest node).map fun n =>
            .group { g with subPtr := g.subPtr.set i.toNat (some n) }
        | _ => none
      else
        let index := (-i - 1).toNat
        child.map fun c => .group ((g.expand index).write index x c)

/-- `mib_node_reg` -/
def arrayNodeReg (tree : ArrayNode) (oid : Oid) (callback : Int) : Int × ArrayNode :=
  if oid.length = 0 then (-1, tree)
  else if oid.length > asn1OidMaxLen then (-1, tree)
  else match arrayInstanceInsert callback oid tree with
    | none => (-1, tree)
    | some tree' => (0, tree')

/-- `mib_tree_node_search`, with the child indices that lead to the node. -/
def arrayNodeSearch : Oid → ArrayNode → Option (List ℕ)
  | [], _ => some []
  | x :: rest, .group g =>
    let i := oidBinarySearch g.ids x
    if 0 ≤ i then
      match g.subPtr[i.toNat]? with
      | some (some node) => (arrayNodeSearch rest node).map (i.toNat :: ·)
      | _ => none
    else none
  | _ :: rest, .inst _ => if rest.length = 0 then some [] else none

/-- What `__mib_tree_delete` does to the arrays: the last index leads to the sub-tree, the
others to its parent. -/
def arrayDeleteAt : List ℕ → ArrayNode → ArrayNode
  | [], node => node
  | _ :: _, .inst callback => .inst callback
  | [i], .group g => .group (g.shrink i)
  | i :: j :: is, .group g =>
    match g.subPtr[i]? with
    | some (some node) =>
      .group { g with subPtr := g.subPtr.set i (some (arrayDeleteAt (j :: is) node)) }
    | _ => .group g

/-- `mib_node_unreg` -/
def arrayNodeUnreg (tree : ArrayNode) (oid : Oid) : ArrayNode :=
  match arrayNodeSearch oid tree with
  | some is => arrayDeleteAt is tree
  | none => tree

/-! ### The tree of pairs -/

mutual

/-- The tree with the used entries of the arrays as pairs. -/
def ArrayNode.toNode : ArrayNode → MibNode
  | .group ⟨_, cnt, subId, subPtr⟩ => .group ((toSubs subId subPtr).take cnt)
  | .inst callback => .inst callback

/-- The pairs of two arrays; a null pointer ends them. -/
def toSubs : List UInt32 → List (Option ArrayNode) → List (UInt32 × MibNode)
  | x :: xs, some n :: ns => (x, n.toNode) :: toSubs xs ns
  | _, _ => []

end

/-- A pair of the arrays in the tree of pairs. -/
def toSub (s : UInt32 × ArrayNode) : UInt32 × MibNode := (s.1, s.2.toNode)

/-- In every group, every used sub-identifier is paired with a node. -/
inductive ArrayNode.Paired : ArrayNode → Prop
  | inst {callback : Int} : Paired (.inst callback)
  | group {g : ChildArrays ArrayNode} {subs : List (UInt32 × ArrayNode)} :
      g.Hold subs → (∀ s ∈ subs, Paired s.2) → Paired (.group g)

variable {subs : List (UInt32 × ArrayNode)}

theorem toSubs_take {ids : List UInt32} {ptrs : List (Option ArrayNode)}
    (hids : ids.take subs.length = subs.map Prod.fst)
    (hptrs : ptrs.take subs.length = subs.map (some ∘ Prod.snd)) :
    (toSubs ids ptrs).take subs.length = subs.map toSub := by
  induction subs generalizing ids ptrs with
  | nil => rfl
  | cons s subs ih =>
    rcases ids with _ | ⟨x, ids⟩
    · cases hids
    · rcases ptrs with _ | ⟨p, ptrs⟩
      · cases hptrs
      · simp only [length_cons, take_succ_cons, map_cons, List.cons.injEq,
          Function.comp_apply] at hids hptrs
        obtain ⟨rfl, hids⟩ := hids
        obtain ⟨rfl, hptrs⟩ := hptrs
        rw [toSubs, length_cons, take_succ_cons, ih hids hptrs]
        rfl

variable {g : ChildArrays ArrayNode}

/-- The tree of pairs of a group in order. -/
theorem ChildArrays.Hold.toNode (h : g.Hold subs) :
    (ArrayNode.group g).toNode = .group (subs.map toSub) := by
  obtain ⟨cap, cnt, subId, subPtr⟩ := g
  obtain rfl : cnt = subs.length := h.cnt
  rw [ArrayNode.toNode, toSubs_take h.ids h.ptrs]

theorem ChildArrays.Hold.subIds (h : g.Hold subs) : subIds (subs.map toSub) = g.ids := by
  rw [h.ids, SmithSnmp.subIds, map_map]
  rfl

/-- What the binary search in a group in order finds. -/
theorem ChildArrays.Hold.lookup (h : g.Hold subs) (hs : g.ids.Pairwise (· < ·)) (x : UInt32) :
    (∃ i, ∃ hi : i < subs.length, oidBinarySearch g.ids x = i ∧
        g.subPtr[i]? = some (some (subs[i]).2)) ∨
      ∃ i ≤ subs.length, oidBinarySearch g.ids x = -(i : Int) - 1 := by
  have hsub : (SmithSnmp.subIds (subs.map toSub)).Pairwise (· < ·) := h.subIds ▸ hs
  have hlen : (subs.map toSub).length = subs.length := length_map ..
  rcases subs_lookup hsub x with ⟨l, n, r, heq, -, -, hi⟩ | ⟨l, r, heq, -, -, hi⟩
  · have hl : l.length < subs.length := by
      rw [← hlen, heq]
      simp
    rw [h.subIds] at hi
    exact .inl ⟨l.length, hl, hi, h.subPtr_get hl⟩
  · rw [h.subIds] at hi
    refine .inr ⟨l.length, ?_, hi⟩
    rw [← hlen, heq]
    simp

/-! ### Refinement -/

namespace ArrayNode

theorem paired_new : Paired (.group .new) := .group ChildArrays.hold_new (by simp)

theorem toNode_new : (ArrayNode.group .new).toNode = .group [] := ChildArrays.hold_new.toNode

theorem insert_child {callback : Int} {rest : Oid}
    (ih : (arrayInstanceInsert callback rest (.group .new)).map toNode =
        mibTreeInstanceInsert callback rest (.group []) ∧
      ∀ n ∈ arrayInstanceInsert callback rest (.group .new), n.Paired) :
    (if rest.length = 0 then some (.inst callback)
        else arrayInstanceInsert callback rest (.group .new)).map toNode =
      (if rest.length = 0 then some (.inst callback)
        else mibTreeInstanceInsert callback rest (.group [])) ∧
    ∀ n ∈ if rest.length = 0 then some (.inst callback)
        else arrayInstanceInsert callback rest (.group .new), n.Paired := by
  split
  · refine ⟨by simp [toNode], ?_⟩
    rintro n ⟨⟩
    exact Paired.inst
  · exact ih

/-- An insertion below an entry that is there. -/
theorem insert_found (hold : g.Hold subs) (hkids : ∀ s ∈ subs, s.2.Paired) (hi : i < subs.length)
    {r : Option ArrayNode} {r' : Option MibNode} (hr : r.map toNode = r' ∧ ∀ n ∈ r, n.Paired) :
    (r.map fun n => ArrayNode.group { g with subPtr := g.subPtr.set i (some n) }).map toNode =
        (r'.map fun n => .group ((subs.map toSub).set i ((toSub subs[i]).1, n))) ∧
      ∀ n ∈ r.map fun n => ArrayNode.group { g with subPtr := g.subPtr.set i (some n) },
        n.Paired := by
  obtain ⟨rfl, hpaired⟩ := hr
  rw [Option.map_map, Option.map_map]
  refine ⟨congrArg (Option.map · r) (funext fun c => ?_), ?_⟩
  · refine ((hold.set hi c).toNode).trans ?_
    rw [map_set]
    rfl
  · rintro n hn
    obtain ⟨c, hc, rfl⟩ := map_eq_some_iff.mp hn
    refine .group (hold.set hi c) fun s hs => ?_
    rcases mem_or_eq_of_mem_set hs with hs | rfl
    · exact hkids s hs
    · exact hpaired c hc

/-- An insertion at an index where there is no entry. -/
theorem insert_missing (hold : g.Hold subs) (hkids : ∀ s ∈ subs, s.2.Paired) (hi : i ≤ subs.length)
    (x : UInt32) {child : Option ArrayNode} (hpaired : ∀ n ∈ child, n.Paired) :
    (child.map fun c => ArrayNode.group ((g.expand i).write i x c)).map toNode =
        ((child.map toNode).map fun c => .group (groupNodeExpand (subs.map toSub) i (x, c))) ∧
      ∀ n ∈ child.map fun c => ArrayNode.group ((g.expand i).write i x c), n.Paired := by
  rw [Option.map_map, Option.map_map]
  refine ⟨congrArg (Option.map · child) (funext fun c => ?_), ?_⟩
  · refine ((hold.write_expand hi x c).toNode).trans ?_
    simp [groupNodeExpand, map_take, map_drop, toSub]
  · rintro n hn
    obtain ⟨c, hc, rfl⟩ := map_eq_some_iff.mp hn
    refine .group (hold.write_expand hi x c) fun s hs => ?_
    rcases mem_append.mp hs with hs | hs
    · exact hkids s (mem_of_mem_take hs)
    · rcases mem_cons.mp hs with rfl | hs
      · exact hpaired c hc
      · exact hkids s (mem_of_mem_drop hs)

variable {node : ArrayNode}

theorem Paired.instanceInsert (callback : Int) (hp : node.Paired) (hwf : node.toNode.Wf d)
    (hlen : oid.length ≤ d) :
    (arrayInstanceInsert callback oid node).map toNode =
        mibTreeInstanceInsert callback oid node.toNode ∧
      ∀ n ∈ arrayInstanceInsert callback oid node, n.Paired := by
  induction oid generalizing d node with
  | nil => simp [arrayInstanceInsert, mibTreeInstanceInsert]
  | cons x rest ih =>
    cases hp with
    | inst => simp [arrayInstanceInsert, mibTreeInstanceInsert, toNode]
    | @group g subs hold hkids =>
      rw [hold.toNode] at hwf
      obtain ⟨hd, hs, hsubs⟩ := MibNode.wf_group_iff.mp hwf
      rw [hold.subIds] at hs
      have hlen' : rest.length ≤ d - 1 := by simp at hlen; omega
      have hnew : (arrayInstanceInsert callback rest (.group .new)).map toNode =
            mibTreeInstanceInsert callback rest (.group []) ∧
          ∀ n ∈ arrayInstanceInsert callback rest (.group .new), n.Paired := by
        rcases Nat.eq_zero_or_pos rest.length with h0 | hpos
        · rw [length_eq_zero_iff.mp h0]
          simp [arrayInstanceInsert, mibTreeInstanceInsert]
        · have hnode := ih (d := d - 1) paired_new
          rw [toNode_new] at hnode
          exact hnode (MibNode.wf_nil (by omega)) hlen'
      obtain ⟨hchild, hpaired⟩ := insert_child hnew
      rw [hold.toNode, arrayInstanceInsert, mibTreeInstanceInsert]
      generalize (if rest.length = 0 then some (.inst callback)
        else arrayInstanceInsert callback rest (.group .new)) = child at hchild hpaired ⊢
      rw [← hchild, hold.subIds]
      by_cases hraw : subs = []
      · -- the first entry of a raw group
        subst hraw
        simp only [hold.isRaw_iff.mpr rfl, isRawGroup, map_nil, isEmpty_nil, if_true,
          Option.map_map]
        refine ⟨congrArg (Option.map · child) (funext fun c => ?_), ?_⟩
        · exact (hold.write_raw x c).toNode
        · rintro n hn
          obtain ⟨c, hc, rfl⟩ := map_eq_some_iff.mp hn
          refine .group (hold.write_raw x c) ?_
          rintro s hs
          obtain rfl := mem_singleton.mp hs
          exact hpaired c hc
      · have hraw₁ : ¬ g.isRaw = true := fun h => hraw (hold.isRaw_iff.mp h)
        have hraw₂ : ¬ isRawGroup (subs.map toSub) = true := by simpa [isRawGroup] using hraw
        rw [if_neg hraw₁, if_neg hraw₂]
        rcases hold.lookup hs x with ⟨i, hi, hsearch, hget⟩ | ⟨i, hi, hsearch⟩
        · have hkid := ih (hkids _ (getElem_mem hi))
            (hsubs (toSub subs[i]) (mem_map_of_mem (getElem_mem hi))) hlen'
          have hget' : (subs.map toSub)[i]? = some (toSub subs[i]) := by simp [hi]
          simp only [hsearch, Int.natCast_nonneg, if_true, Int.toNat_natCast, hget, hget']
          exact insert_found hold hkids hi hkid
        · have hneg : ¬ (0 : Int) ≤ -(i : Int) - 1 := by omega
          have hindex : (-(-(i : Int) - 1) - 1).toNat = i := by omega
          simp only [hsearch, hneg, if_false, hindex]
          exact insert_missing hold hkids hi x hpaired

theorem Paired.nodeSearch (hp : node.Paired) (hwf : node.toNode.Wf d) :
    arrayNodeSearch oid node = mibTreeNodeSearch oid node.toNode := by
  induction oid generalizing d node with
  | nil => simp [arrayNodeSearch, mibTreeNodeSearch]
  | cons x rest ih =>
    cases hp with
    | inst => simp [arrayNodeSearch, mibTreeNodeSearch, toNode]
    | @group g subs hold hkids =>
      rw [hold.toNode] at hwf
      obtain ⟨-, hs, hsubs⟩ := MibNode.wf_group_iff.mp hwf
      rw [hold.subIds] at hs
      rw [hold.toNode, arrayNodeSearch, mibTreeNodeSearch, hold.subIds]
      rcases hold.lookup hs x with ⟨i, hi, hsearch, hget⟩ | ⟨i, hi, hsearch⟩
      · have hkid := ih (hkids _ (getElem_mem hi))
          (hsubs (toSub subs[i]) (mem_map_of_mem (getElem_mem hi)))
        have hget' : (subs.map toSub)[i]? = some (toSub subs[i]) := by simp [hi]
        simp only [hsearch, Int.natCast_nonneg, if_true, Int.toNat_natCast, hget, hget', hkid,
          toSub]
      · have hneg : ¬ (0 : Int) ≤ -(i : Int) - 1 := by omega
        simp only [hsearch, hneg, if_false]

theorem Paired.deleteAt {is : List ℕ} (hp : node.Paired) (hwf : node.toNode.Wf d)
    (hfound : arrayNodeSearch oid node = some is) :
    (arrayDeleteAt is node).toNode = mibTreeDeleteAt is node.toNode ∧
      (arrayDeleteAt is node).Paired := by
  induction oid generalizing d node is with
  | nil =>
    obtain rfl : [] = is := by simpa [arrayNodeSearch] using hfound
    simpa [arrayDeleteAt, mibTreeDeleteAt] using hp
  | cons x rest ih =>
    cases hp with
    | inst =>
      cases is with
      | nil => simpa [arrayDeleteAt, mibTreeDeleteAt] using Paired.inst
      | cons i is => simpa [arrayDeleteAt, mibTreeDeleteAt, toNode] using Paired.inst
    | @group g subs hold hkids =>
      rw [hold.toNode] at hwf
      obtain ⟨-, hs, hsubs⟩ := MibNode.wf_group_iff.mp hwf
      rw [hold.subIds] at hs
      rw [arrayNodeSearch] at hfound
      rcases hold.lookup hs x with ⟨i, hi, hsearch, hget⟩ | ⟨i, hi, hsearch⟩
      · simp only [hsearch, Int.natCast_nonneg, if_true, Int.toNat_natCast, hget] at hfound
        obtain ⟨is, hkid, rfl⟩ := map_eq_some_iff.mp hfound
        rw [hold.toNode]
        cases is with
        | nil =>
          rw [arrayDeleteAt, mibTreeDeleteAt, (hold.shrink hi).toNode, groupNodeShrink,
            eraseIdx_map]
          exact ⟨rfl, .group (hold.shrink hi)
            fun s hs => hkids s (mem_of_mem_eraseIdx hs)⟩
        | cons j is =>
          obtain ⟨hnode, hpaired⟩ := ih (hkids _ (getElem_mem hi))
            (hsubs (toSub subs[i]) (mem_map_of_mem (getElem_mem hi))) hkid
          have hset := insert_found hold hkids hi
            (r := some (arrayDeleteAt (j :: is) subs[i].2))
            ⟨rfl, fun n hn => some.inj hn ▸ hpaired⟩
          rw [arrayDeleteAt, hget, mibTreeDeleteAt]
          refine ⟨(some.inj hset.1).trans ?_, hset.2 _ rfl⟩
          have hi' : i < (subs.map toSub).length := by simpa using hi
          rw [hnode, modify_eq_set_getElem?, getElem?_eq_getElem hi', getElem_map]
          rfl
      · have hneg : ¬ (0 : Int) ≤ -(i : Int) - 1 := by omega
        simp only [hsearch, hneg, if_false, reduceCtorEq] at hfound

variable {tree : ArrayNode}

/-- **Registering** keeps the pairing and refines `mibNodeReg`. -/
theorem Paired.nodeReg (hp : tree.Paired) (hwf : tree.toNode.Wf asn1OidMaxLen) (oid : Oid)
    (callback : Int) :
    ((arrayNodeReg tree oid callback).1, (arrayNodeReg tree oid callback).2.toNode) =
        mibNodeReg tree.toNode oid callback ∧
      (arrayNodeReg tree oid callback).2.Paired := by
  rw [arrayNodeReg, mibNodeReg]
  by_cases h0 : oid.length = 0
  · simp only [if_pos h0]
    exact ⟨trivial, hp⟩
  · by_cases hlong : oid.length > asn1OidMaxLen
    · simp only [if_neg h0, if_pos hlong]
      exact ⟨trivial, hp⟩
    · obtain ⟨hinsert, hpaired⟩ := hp.instanceInsert callback hwf (not_lt.mp hlong)
      simp only [if_neg h0, if_neg hlong]
      rw [← hinsert]
      cases htree : arrayInstanceInsert callback oid tree with
      | none => exact ⟨rfl, hp⟩
      | some tree' => exact ⟨rfl, hpaired tree' htree⟩

/-- **Unregistering** keeps the pairing and refines `mibNodeUnreg`. -/
theorem Paired.nodeUnreg (hp : tree.Paired) (hwf : tree.toNode.Wf d) (oid : Oid) :
    (arrayNodeUnreg tree oid).toNode = mibNodeUnreg tree.toNode oid ∧
      (arrayNodeUnreg tree oid).Paired := by
  rw [arrayNodeUnreg, mibNodeUnreg, ← hp.nodeSearch hwf]
  cases hfound : arrayNodeSearch oid tree with
  | none => exact ⟨rfl, hp⟩
  | some is => exact hp.deleteAt hwf hfound

end ArrayNode

/-! ### Histories -/

/-- The calls that change the tree. -/
inductive TreeOp where
  | reg (oid : Oid) (callback : Int)
  | unreg (oid : Oid)

/-- One call. -/
def TreeOp.apply (tree : ArrayNode) : TreeOp → ArrayNode
  | .reg oid callback => (arrayNodeReg tree oid callback).2
  | .unreg oid => arrayNodeUnreg tree oid

/-- The tree after a sequence of calls from `mib_init`. -/
def treeAfter (ops : List TreeOp) : ArrayNode := ops.foldl TreeOp.apply mibInit

theorem TreeOp.apply_refines {tree : ArrayNode} (hp : tree.Paired) (hr : tree.toNode.Reachable)
    (op : TreeOp) :
    (op.apply tree).Paired ∧ (op.apply tree).toNode.Reachable := by
  cases op with
  | reg oid callback =>
    obtain ⟨hreg, hpaired⟩ := hp.nodeReg hr.wf oid callback
    refine ⟨hpaired, ?_⟩
    have hnode : (arrayNodeReg tree oid callback).2.toNode =
        (mibNodeReg tree.toNode oid callback).2 := congrArg Prod.snd hreg
    rw [TreeOp.apply, hnode]
    exact .reg oid callback hr
  | unreg oid =>
    obtain ⟨hunreg, hpaired⟩ := hp.nodeUnreg hr.wf oid
    refine ⟨hpaired, ?_⟩
    rw [TreeOp.apply, hunreg]
    exact .unreg oid hr

theorem treeAfter_refines (ops : List TreeOp) :
    (treeAfter ops).Paired ∧ (treeAfter ops).toNode.Reachable := by
  have hfold : ∀ (tree : ArrayNode), tree.Paired → tree.toNode.Reachable →
      (ops.foldl TreeOp.apply tree).Paired ∧ (ops.foldl TreeOp.apply tree).toNode.Reachable := by
    induction ops with
    | nil => exact fun tree hp hr => ⟨hp, hr⟩
    | cons op ops ih =>
      intro tree hp hr
      obtain ⟨hp', hr'⟩ := op.apply_refines hp hr
      exact ih _ hp' hr'
  have hnew : mibInit.toNode = .group [] := ArrayNode.toNode_new
  refine hfold mibInit ArrayNode.paired_new ?_
  rw [hnew]
  exact .init

/-- The representation invariant of the arrays: in every group the used sub-identifiers
strictly increase and are paired index by index with nodes, and paths from this node on have
at most the given length. -/
inductive ArrayNode.Wf : ℕ → ArrayNode → Prop
  | inst {d : ℕ} {callback : Int} : Wf d (.inst callback)
  | group {d : ℕ} {g : ChildArrays ArrayNode} {subs : List (UInt32 × ArrayNode)} :
      g.Hold subs → g.ids.Pairwise (· < ·) → (∀ s ∈ subs, Wf d s.2) → Wf (d + 1) (.group g)

/-- The invariant from the one of the tree of pairs. -/
theorem ArrayNode.Paired.wf {d : ℕ} {node : ArrayNode} (hp : node.Paired)
    (hwf : node.toNode.Wf d) : node.Wf d := by
  induction hp generalizing d with
  | inst => exact .inst
  | @group g subs hold _ ih =>
    rw [hold.toNode] at hwf
    obtain ⟨hd, hs, hsubs⟩ := MibNode.wf_group_iff.mp hwf
    obtain ⟨d, rfl⟩ : ∃ d', d = d' + 1 := ⟨d - 1, by omega⟩
    rw [hold.subIds] at hs
    exact .group hold hs fun s hmem => ih s hmem (hsubs _ (mem_map_of_mem hmem))

end SmithSnmp
