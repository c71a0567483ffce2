import SmithSnmp.MibArrays

/-!
# The Capacity of the Child Arrays

`sub_id_cap` and `sub_id_cnt` of a group node have 16 bits, while `alloc_nr` and the allocation
are computed in `int`. The registration side of `core/mib_tree.c` is given here as in
`SmithSnmp.MibArrays`, with the counters modulo `2 ^ 16` and with a record of the entries of
`sub_id` and `sub_ptr` that an insertion reads and writes.

The capacities are 1, 4, 9, 16 and so on up to 47421, and the one after it, 71134, does not fit in
16 bits. As long as no group has more than 47421 sub-nodes the counters are exact
(`wordRun_eq_treeAfter`). The next sub-node gets arrays of 71134 elements, but `sub_id_cap` says
5598, and the one after that has all entries copied into arrays of 8400 elements.

## Main results

* `wordRun_eq_treeAfter`: the counters of 16 bits make no difference for groups that are not too
  large.
* `childArrays_sound_iff`: all accesses are inside of the arrays, and `sub_id_cap` is the number of
  their elements, exactly for the histories with such groups only.
-/

namespace SmithSnmp

open List Lib Option

variable {cap index n : ℕ} {c tree : ArrayNode}

/-! ### Accesses -/

/-- The use of an entry of `sub_id` and `sub_ptr`, with the numbers of elements that are allocated
for the two arrays, and for a write with the value of `sub_id_cap`. -/
inductive EntryAccess
  | read (index idLen ptrLen : ℕ)
  | write (index idLen ptrLen cap : ℕ)
  deriving DecidableEq, Repr

/-- The entry is inside of both arrays, and `sub_id_cap` is right when it is written. -/
def EntryAccess.Sound : EntryAccess → Prop
  | .read index idLen ptrLen => index < idLen ∧ index < ptrLen
  | .write index idLen ptrLen cap => (index < idLen ∧ index < ptrLen) ∧ cap = idLen ∧ cap = ptrLen

instance : DecidablePred EntryAccess.Sound
  | .read _ _ _ => by unfold EntryAccess.Sound; infer_instance
  | .write _ _ _ _ => by unfold EntryAccess.Sound; infer_instance

namespace ChildArrays

variable {ν : Type}

/-- `group_node_expand` -/
def wordExpand (g : ChildArrays ν) (index : ℕ) : List EntryAccess × ChildArrays ν :=
  if g.subIdCap < g.subIdCnt + 1 then
    -- resize and duplicate: the new arrays have as many elements as `alloc_nr` says in `int`
    let elems := allocNr g.subIdCap
    let cap := elems % 2 ^ 16
    let moves := spreadMoves index g.subIdCnt
    (moves.flatMap fun k =>
        [.read k.1 g.subId.length g.subPtr.length, .write k.2 elems elems cap],
      { g with
        subIdCap := cap
        subId := moves.foldl (fun b k => moveElem g.subId b k.1 k.2) (List.replicate elems 0)
        subPtr := moves.foldl (fun b k => moveElem g.subPtr b k.1 k.2)
          (List.replicate elems none) })
  else
    -- without expanding
    let moves := shiftUpMoves index (g.subIdCnt - index)
    (moves.flatMap fun k => [.read k.1 g.subId.length g.subPtr.length,
        .write k.2 g.subId.length g.subPtr.length g.subIdCap],
      { g with
        subId := moves.foldl (fun a k => moveElem a a k.1 k.2) g.subId
        subPtr := moves.foldl (fun a k => moveElem a a k.1 k.2) g.subPtr })

/-- The write of the entry at `index`. -/
def writeAccess (g : ChildArrays ν) (index : ℕ) : EntryAccess :=
  .write index g.subId.length g.subPtr.length g.subIdCap

/-- A sub-node is written at `index` and counted. -/
def wordWrite (g : ChildArrays ν) (index : ℕ) (x : UInt32) (n : ν) : ChildArrays ν :=
  { g with
    subIdCnt := (g.subIdCnt + 1) % 2 ^ 16
    subId := g.subId.set index x
    subPtr := g.subPtr.set index (some n) }

end ChildArrays

/-! ### The tree -/

/-- `mib_tree_instance_insert` in place: the accesses, whether an instance node was created, and
the tree as the loop leaves it on every exit. -/
def wordInstanceInsert (callback : Int) : Oid → ArrayNode → List EntryAccess × Bool × ArrayNode
  | [], node => ([], false, node)
  | _ :: _, .inst cb => ([], false, .inst cb)
  | x :: rest, .group g =>
    -- the node allocated for a missing sub-identifier, and what becomes of it
    let child := if rest.length = 0 then ([], true, .inst callback)
      else wordInstanceInsert callback rest (.group .new)
    if g.isRaw then
      (g.writeAccess 0 :: child.1, child.2.1, .group (g.wordWrite 0 x child.2.2))
    else
      let i := oidBinarySearch g.ids x
      if 0 ≤ i then
        match g.subPtr[i.toNat]? with
        | some (some node) =>
          let below := wordInstanceInsert callback rest node
          (below.1, below.2.1,
            .group { g with subPtr := g.subPtr.set i.toNat (some below.2.2) })
        | _ => ([], false, .group g)
      else
        let index := (-i - 1).toNat
        let grown := g.wordExpand index
        (grown.1 ++ grown.2.writeAccess index :: child.1, child.2.1,
          .group (grown.2.wordWrite index x child.2.2))

/-- `mib_node_reg`: the accesses, the return code and the tree. -/
def wordNodeReg (tree : ArrayNode) (oid : Oid) (callback : Int) :
    List EntryAccess × Int × ArrayNode :=
  if oid.length = 0 then ([], -1, tree)
  else if oid.length > asn1OidMaxLen then ([], -1, tree)
  else
    let inserted := wordInstanceInsert callback oid tree
    (inserted.1, if inserted.2.1 then 0 else -1, inserted.2.2)

/-- One call. Unregistering only lowers counters, so it is that of `SmithSnmp.MibArrays`. -/
def wordApply (tree : ArrayNode) : TreeOp → List EntryAccess × ArrayNode
  | .reg oid callback =>
    let registered := wordNodeReg tree oid callback
    (registered.1, registered.2.2)
  | .unreg oid => ([], arrayNodeUnreg tree oid)

/-- A sequence of calls, with all accesses. -/
def wordRun (tree : ArrayNode) : List TreeOp → List EntryAccess × ArrayNode
  | [] => ([], tree)
  | op :: ops =>
    let called := wordApply tree op
    let others := wordRun called.2 ops
    (called.1 ++ others.1, others.2)

/-- The greatest capacity that fits in 16 bits. -/
def maxSiblings : ℕ := 47421

/-- No group has more than so many sub-nodes. -/
inductive MibNode.AtMost (n : ℕ) : MibNode → Prop
  | inst {callback : Int} : AtMost n (.inst callback)
  | group {subs : List (UInt32 × MibNode)} :
      subs.length ≤ n → (∀ s ∈ subs, AtMost n s.2) → AtMost n (.group subs)

/-! ### Capacities -/

namespace ChildArrays

variable {ν : Type}

/-- The capacities that `alloc_nr` gives up to the greatest one of 16 bits. -/
def GrownCap (cap : ℕ) : Prop := ∃ k ≤ 22, cap = allocNr^[k] 1

theorem GrownCap.le (h : GrownCap cap) : cap ≤ maxSiblings := by
  obtain ⟨k, hk, rfl⟩ := h
  have hall : ∀ k ≤ 22, allocNr^[k] 1 ≤ maxSiblings := by decide +kernel
  exact hall k hk

theorem GrownCap.next (h : GrownCap cap) (hlt : cap < maxSiblings) : GrownCap (allocNr cap) := by
  obtain ⟨k, hk, rfl⟩ := h
  have hlast : allocNr^[22] 1 = maxSiblings := by decide +kernel
  have hne : k ≠ 22 := by
    rintro rfl
    exact absurd hlt (hlast ▸ lt_irrefl _)
  exact ⟨k + 1, by omega, (Function.iterate_succ_apply' allocNr k 1).symm⟩

/-- The next one fits in 16 bits. -/
theorem GrownCap.word_next (h : GrownCap cap) (hlt : cap < maxSiblings) :
    allocNr cap % 2 ^ 16 = allocNr cap := by
  have hle := (h.next hlt).le
  rw [maxSiblings] at hle
  exact Nat.mod_eq_of_lt (by omega)

/-! ### One group -/

section Expand

variable {g : ChildArrays ν}

/-- Full arrays are replaced as in `expand`, but for the capacity. -/
theorem wordExpand_of_full (h : g.subIdCap < g.subIdCnt + 1) (index : ℕ) :
    (g.wordExpand index).2 =
      { g.expand index with subIdCap := allocNr g.subIdCap % 2 ^ 16 } := by
  rw [wordExpand, if_pos h, expand, if_pos h]
  simp only [spread_eq_foldl]

/-- Every entry before the new one is copied to its own index. -/
theorem write_mem_wordExpand (h : g.subIdCap < g.subIdCnt + 1) {i : ℕ} (hi : i < g.subIdCnt)
    (hlt : i < index) :
    .write i (allocNr g.subIdCap) (allocNr g.subIdCap) (allocNr g.subIdCap % 2 ^ 16) ∈
      (g.wordExpand index).1 := by
  rw [wordExpand, if_pos h]
  refine mem_flatMap.mpr ⟨(i, i), mem_spreadMoves.mpr ⟨i, hi, by rw [if_pos hlt]⟩, ?_⟩
  exact mem_cons_of_mem _ mem_cons_self

/-- With room left, the entries are shifted as in `expand`. -/
theorem wordExpand_of_room (h : ¬g.subIdCap < g.subIdCnt + 1) (index : ℕ) :
    (g.wordExpand index).2 = g.expand index := by
  rw [wordExpand, if_neg h, expand, if_neg h]
  simp only [shiftUp_eq_foldl]

end Expand

/-- A counter that does not overflow. -/
theorem wordWrite_eq {g : ChildArrays ν} (h : g.subIdCnt < maxSiblings) (index : ℕ) (x : UInt32)
    (n : ν) : g.wordWrite index x n = g.write index x n := by
  rw [maxSiblings] at h
  rw [wordWrite, write, Nat.mod_eq_of_lt (by omega)]

theorem expand_subIdCnt (g : ChildArrays ν) (index : ℕ) :
    (g.expand index).subIdCnt = g.subIdCnt := by
  rw [expand]
  split <;> rfl

namespace Hold

variable {g : ChildArrays ν} {subs : List (UInt32 × ν)}

theorem writeAccess_raw (h : g.Hold subs) : (g.writeAccess 0).Sound :=
  ⟨⟨h.lenId ▸ h.cap_pos, h.lenPtr ▸ h.cap_pos⟩, h.lenId.symm, h.lenPtr.symm⟩

/-- **A group with room to grow**: the counters are exact. -/
theorem wordExpand_eq (h : g.Hold subs) (hcap : GrownCap g.subIdCap)
    (hlt : subs.length < maxSiblings) (index : ℕ) : (g.wordExpand index).2 = g.expand index := by
  by_cases hfull : g.subIdCap < g.subIdCnt + 1
  · have hcnt := h.cnt
    rw [wordExpand_of_full hfull, hcap.word_next (by omega), expand, if_pos hfull]
  · exact wordExpand_of_room hfull index

/-- The capacity of such a group is one of those again. -/
theorem grownCap_expand (h : g.Hold subs) (hcap : GrownCap g.subIdCap)
    (hlt : subs.length < maxSiblings) (index : ℕ) : GrownCap (g.expand index).subIdCap := by
  have hcnt := h.cnt
  rw [expand]
  split
  · exact hcap.next (by omega)
  · exact hcap

/-- The accesses of `group_node_expand` are sound in such a group. -/
theorem wordExpand_sound (h : g.Hold subs) (hcap : GrownCap g.subIdCap)
    (hlt : subs.length < maxSiblings) (hi : index ≤ subs.length) :
    ∀ a ∈ (g.wordExpand index).1, a.Sound := by
  have hcnt := h.cnt
  have hroom := h.cap
  have hlenId := h.lenId
  have hlenPtr := h.lenPtr
  intro a ha
  rw [wordExpand] at ha
  split at ha
  · next hfull =>
      have hnext := hcap.word_next (by omega)
      have hmore : g.subIdCnt < allocNr g.subIdCap := by
        rw [allocNr]
        omega
      obtain ⟨k, hk, ha⟩ := mem_flatMap.mp ha
      obtain ⟨i, hin, rfl⟩ := mem_spreadMoves.mp hk
      simp only [mem_cons, not_mem_nil, or_false] at ha
      rcases ha with rfl | rfl
      · exact ⟨by omega, by omega⟩
      · have hto : (if i < index then i else i + 1) < allocNr g.subIdCap := by
          split <;> omega
        exact ⟨⟨hto, hto⟩, hnext, hnext⟩
  · next hfull =>
      obtain ⟨k, hk, ha⟩ := mem_flatMap.mp ha
      obtain ⟨i, hle, hin, rfl⟩ := mem_shiftUpMoves.mp hk
      simp only [mem_cons, not_mem_nil, or_false] at ha
      rcases ha with rfl | rfl
      · exact ⟨by omega, by omega⟩
      · exact ⟨⟨by omega, by omega⟩, hlenId.symm, hlenPtr.symm⟩

/-- The write of the new entry is sound in such a group. -/
theorem writeAccess_sound (h : g.Hold subs) (hcap : GrownCap g.subIdCap)
    (hlt : subs.length < maxSiblings) (hi : index ≤ subs.length) (x : UInt32) (n : ν) :
    ((g.wordExpand index).2.writeAccess index).Sound := by
  have hnew := h.write_expand hi x n
  have hroom : (g.expand index).subIdCnt + 1 ≤ (g.expand index).subIdCap := hnew.cap
  have hlenId : (g.expand index).subId.length = (g.expand index).subIdCap := by
    have := hnew.lenId
    rwa [write, length_set] at this
  have hlenPtr : (g.expand index).subPtr.length = (g.expand index).subIdCap := by
    have := hnew.lenPtr
    rwa [write, length_set] at this
  rw [expand_subIdCnt] at hroom
  have hcnt := h.cnt
  rw [h.wordExpand_eq hcap hlt]
  exact ⟨⟨by omega, by omega⟩, hlenId.symm, hlenPtr.symm⟩

/-- **A group with as many sub-nodes as the greatest capacity**: the arrays for the next one are
larger than `sub_id_cap` can say. -/
theorem wordExpand_full (h : g.Hold subs) (hcap : GrownCap g.subIdCap)
    (hfull : subs.length = maxSiblings) (index : ℕ) :
    (g.wordExpand index).2 = { g.expand index with subIdCap := 5598 } ∧
      (g.expand index).subId.length = 71134 ∧ (g.expand index).subPtr.length = 71134 := by
  have hle := hcap.le
  have hroom := h.cap
  have hcnt := h.cnt
  have hlast : g.subIdCap = maxSiblings := by omega
  have hover : g.subIdCap < g.subIdCnt + 1 := by omega
  have helems : allocNr g.subIdCap = 71134 := by
    rw [hlast]
    rfl
  refine ⟨?_, ?_, ?_⟩
  · rw [wordExpand_of_full hover, helems]
    rfl
  · rw [expand, if_pos hover, length_spread, length_replicate, helems]
  · rw [expand, if_pos hover, length_spread, length_replicate, helems]

/-- So `sub_id_cap` is wrong when it is written. -/
theorem writeAccess_full (h : g.Hold subs) (hcap : GrownCap g.subIdCap)
    (hfull : subs.length = maxSiblings) (index : ℕ) :
    (g.wordExpand index).2.writeAccess index = .write index 71134 71134 5598 := by
  obtain ⟨heq, hid, hptr⟩ := h.wordExpand_full hcap hfull index
  rw [writeAccess, heq, hid, hptr]

end Hold

end ChildArrays

/-! ### Small groups -/

namespace MibNode

theorem atMost_group_iff {subs : List (UInt32 × MibNode)} :
    AtMost n (.group subs) ↔ subs.length ≤ n ∧ ∀ s ∈ subs, AtMost n s.2 := by
  constructor
  · intro h
    cases h with
    | group hlen hsubs => exact ⟨hlen, hsubs⟩
  · rintro ⟨hlen, hsubs⟩
    exact .group hlen hsubs

/-- A path of new nodes has groups of one sub-node. -/
theorem atMost_insert_new (callback : Int) (hn : 1 ≤ n) {oid : Oid} (hne : oid ≠ []) :
    ∃ tree, mibTreeInstanceInsert callback oid (.group []) = some tree ∧ tree.AtMost n := by
  induction oid with
  | nil => exact absurd rfl hne
  | cons x rest ih =>
    cases rest with
    | nil =>
      refine ⟨.group [(x, .inst callback)], by simp [mibTreeInstanceInsert, isRawGroup], ?_⟩
      refine .group (by simpa using hn) ?_
      rintro s hs
      obtain rfl := mem_singleton.mp hs
      exact .inst
    | cons y rest =>
      obtain ⟨c, hc, hmost⟩ := ih (cons_ne_nil y rest)
      refine ⟨.group [(x, c)], ?_, ?_⟩
      · rw [mibTreeInstanceInsert]
        simp [isRawGroup, hc]
      · refine .group (by simpa using hn) ?_
        rintro s hs
        obtain rfl := mem_singleton.mp hs
        exact hmost

/-- Deletion leaves no group larger. -/
theorem AtMost.deleteAt {node : MibNode} (h : node.AtMost n) (is : List ℕ) :
    (mibTreeDeleteAt is node).AtMost n := by
  induction is generalizing node with
  | nil => simpa [mibTreeDeleteAt] using h
  | cons i is ih =>
    cases h with
    | inst => simpa [mibTreeDeleteAt] using AtMost.inst
    | @group subs hlen hsubs =>
      cases is with
      | nil =>
        rw [mibTreeDeleteAt]
        refine .group ((length_eraseIdx_le subs i).trans hlen) fun s hs => ?_
        exact hsubs s (mem_of_mem_eraseIdx hs)
      | cons j is =>
        rw [mibTreeDeleteAt]
        refine .group (by simpa using hlen) fun s hs => ?_
        obtain ⟨k, hk, rfl⟩ := mem_iff_getElem.mp hs
        rw [getElem_modify]
        split
        · exact ih (hsubs _ (getElem_mem _))
        · exact hsubs _ (getElem_mem _)

end MibNode

/-- In every group the capacity is one of those that fit in 16 bits. -/
inductive ArrayNode.Grown : ArrayNode → Prop
  | inst {callback : Int} : Grown (.inst callback)
  | group {g : ChildArrays ArrayNode} : ChildArrays.GrownCap g.subIdCap →
      (∀ n, some n ∈ g.subPtr → Grown n) → Grown (.group g)

namespace ArrayNode

theorem grown_new : Grown (.group .new) :=
  .group ⟨0, by omega, rfl⟩ (by simp [ChildArrays.new])

theorem Grown.set {g : ChildArrays ArrayNode} (hcap : ChildArrays.GrownCap g.subIdCap)
    (hkids : ∀ n, some n ∈ g.subPtr → n.Grown) (hc : c.Grown) (index : ℕ)
    {g' : ChildArrays ArrayNode} (hcap' : g'.subIdCap = g.subIdCap)
    (hptr : g'.subPtr = g.subPtr.set index (some c)) : Grown (.group g') := by
  refine .group (hcap' ▸ hcap) fun n hn => ?_
  rw [hptr] at hn
  rcases mem_or_eq_of_mem_set hn with hn | hn
  · exact hkids n hn
  · exact some.inj hn ▸ hc

/-- Deletion keeps the capacities. -/
theorem Grown.deleteAt {node : ArrayNode} (h : node.Grown) (is : List ℕ) :
    (arrayDeleteAt is node).Grown := by
  induction is generalizing node with
  | nil => simpa [arrayDeleteAt] using h
  | cons i is ih =>
    cases h with
    | inst => simpa [arrayDeleteAt] using Grown.inst
    | @group g hcap hkids =>
      cases is with
      | nil =>
        rw [arrayDeleteAt, ChildArrays.shrink]
        split
        · exact .group hcap fun n hn => hkids n (mem_of_mem_shiftDown hn)
        · refine .group hcap fun n hn => ?_
          rcases mem_or_eq_of_mem_set hn with hn | hn
          · exact hkids n hn
          · cases hn
      | cons j is =>
        rw [arrayDeleteAt]
        split
        · next node hnode =>
            have hkid := ih (hkids node (mem_of_getElem? hnode))
            exact Grown.set hcap hkids hkid i rfl rfl
        · exact .group hcap hkids

/-- A new node at an index where there is none. -/
theorem Grown.write_expand {g : ChildArrays ArrayNode} {subs : List (UInt32 × ArrayNode)}
    (hold : g.Hold subs) (hcap : ChildArrays.GrownCap g.subIdCap)
    (hkids : ∀ n, some n ∈ g.subPtr → n.Grown) (hlt : subs.length < maxSiblings) (hc : c.Grown)
    (index : ℕ) (x : UInt32) : Grown (.group ((g.expand index).write index x c)) := by
  have hold' : ∀ n, some n ∈ (g.expand index).subPtr → n.Grown := by
    intro n hn
    rw [ChildArrays.expand] at hn
    split at hn
    · rcases mem_of_mem_spread hn with hn | hn
      · exact hkids n hn
      · cases eq_of_mem_replicate hn
    · exact hkids n (mem_of_mem_shiftUp hn)
  exact Grown.set (hold.grownCap_expand hcap hlt index) hold' hc index rfl rfl

/-! ### Insertions -/

/-- An insertion into `node` with counters of 16 bits beside the one of `SmithSnmp.MibArrays`. If
that one leaves no group too large, both are the same and all accesses are sound, and a bad
traversal leaves the node as it was; otherwise an access is not sound. -/
structure Tracks (word : List EntryAccess × Bool × ArrayNode) (node : ArrayNode)
    (ideal : Option ArrayNode) : Prop where
  fits : (∀ n ∈ ideal, n.toNode.AtMost maxSiblings) →
    (∀ a ∈ word.1, a.Sound) ∧ word.2 = (ideal.isSome, ideal.getD node) ∧ ∀ n ∈ ideal, n.Grown
  exceeds : ∀ n ∈ ideal, ¬n.toNode.AtMost maxSiblings → ∃ a ∈ word.1, ¬a.Sound

/-- An insertion that leaves no group too large. -/
theorem Tracks.of_fits {accesses : List EntryAccess} {node : ArrayNode}
    (hsound : ∀ a ∈ accesses, a.Sound) (hgrown : tree.Grown)
    (hmost : tree.toNode.AtMost maxSiblings) : Tracks (accesses, true, tree) node (some tree) := by
  refine ⟨fun _ => ⟨hsound, rfl, ?_⟩, ?_⟩
  · rintro n ⟨⟩
    exact hgrown
  · rintro n ⟨⟩ hno
    exact absurd hmost hno

/-- An insertion that does. -/
theorem Tracks.of_exceeds {word : List EntryAccess × Bool × ArrayNode} {node : ArrayNode}
    (hbad : ∃ a ∈ word.1, ¬a.Sound) (hmost : ¬tree.toNode.AtMost maxSiblings) :
    Tracks word node (some tree) := by
  refine ⟨fun h => absurd (h tree rfl) hmost, ?_⟩
  rintro n ⟨⟩ -
  exact hbad

theorem fresh_child {callback : Int} {rest : Oid} {d : ℕ} (hlen : rest.length ≤ d)
    (ih : Tracks (wordInstanceInsert callback rest (.group .new)) (.group .new)
      (arrayInstanceInsert callback rest (.group .new))) :
    ∃ accesses c,
      (if rest.length = 0 then ([], true, .inst callback)
        else wordInstanceInsert callback rest (.group .new)) = (accesses, true, c) ∧
      (if rest.length = 0 then some (.inst callback)
        else arrayInstanceInsert callback rest (.group .new)) = some c ∧
      (∀ a ∈ accesses, a.Sound) ∧ c.Grown ∧ c.toNode.AtMost maxSiblings := by
  split
  · exact ⟨[], .inst callback, rfl, rfl, by simp, .inst, by rw [toNode]; exact .inst⟩
  · next hne =>
      have hwf : (ArrayNode.group .new).toNode.Wf d := by
        rw [toNode_new]
        exact MibNode.wf_nil (by omega)
      obtain ⟨hnode, -⟩ := paired_new.instanceInsert callback hwf hlen
      obtain ⟨tree, htree, hmost⟩ := MibNode.atMost_insert_new callback (n := maxSiblings)
        (by decide) (length_eq_zero_iff.not.mp hne)
      rw [toNode_new, htree] at hnode
      obtain ⟨c, hc, rfl⟩ := map_eq_some_iff.mp hnode
      rw [hc] at ih
      obtain ⟨hsound, heq, hgrown⟩ := ih.fits (by rintro n ⟨⟩; exact hmost)
      exact ⟨_, c, Prod.ext rfl heq, hc, hsound, hgrown c rfl, hmost⟩

section Group

variable {g : ChildArrays ArrayNode} {subs : List (UInt32 × ArrayNode)}

theorem tracks_raw (hold : g.Hold []) (hcap : ChildArrays.GrownCap g.subIdCap)
    (hkids : ∀ n, some n ∈ g.subPtr → n.Grown) (x : UInt32) {accesses : List EntryAccess}
    (hsound : ∀ a ∈ accesses, a.Sound) (hc : c.Grown) (hmost : c.toNode.AtMost maxSiblings) :
    Tracks (g.writeAccess 0 :: accesses, true, .group (g.wordWrite 0 x c)) (.group g)
      (some (.group (g.write 0 x c))) := by
  have hcnt : g.subIdCnt = 0 := hold.cnt
  rw [ChildArrays.wordWrite_eq (by rw [hcnt]; decide)]
  refine .of_fits ?_ (Grown.set hcap hkids hc 0 rfl rfl) ?_
  · intro a ha
    rcases mem_cons.mp ha with rfl | ha
    · exact hold.writeAccess_raw
    · exact hsound a ha
  · rw [(hold.write_raw x c).toNode]
    refine .group (by simp [maxSiblings]) fun s hs => ?_
    obtain rfl := mem_singleton.mp hs
    exact hmost

/-- An insertion below an entry that is there. -/
theorem tracks_found (hold : g.Hold subs) (hcap : ChildArrays.GrownCap g.subIdCap)
    (hkids : ∀ n, some n ∈ g.subPtr → n.Grown) (hsmall : subs.length ≤ maxSiblings)
    (hmosts : ∀ s ∈ subs, s.2.toNode.AtMost maxSiblings) {i : ℕ} (hi : i < subs.length)
    (hget : g.subPtr[i]? = some (some c)) {word : List EntryAccess × Bool × ArrayNode}
    {ideal : Option ArrayNode} (h : Tracks word c ideal) :
    Tracks (word.1, word.2.1, .group { g with subPtr := g.subPtr.set i (some word.2.2) })
      (.group g) (ideal.map fun n => .group { g with subPtr := g.subPtr.set i (some n) }) := by
  have hiff : ∀ n : ArrayNode,
      (ArrayNode.group { g with subPtr := g.subPtr.set i (some n) }).toNode.AtMost maxSiblings ↔
        n.toNode.AtMost maxSiblings := by
    intro n
    rw [(hold.set hi n).toNode, MibNode.atMost_group_iff]
    constructor
    · rintro ⟨-, hall⟩
      exact hall (toSub (subs[i].1, n)) (mem_map_of_mem (mem_set hi _))
    · intro hn
      refine ⟨by simpa using hsmall, fun s hs => ?_⟩
      obtain ⟨t, ht, rfl⟩ := mem_map.mp hs
      rcases mem_or_eq_of_mem_set ht with ht | rfl
      · exact hmosts t ht
      · exact hn
  refine ⟨fun hall => ?_, ?_⟩
  · obtain ⟨hsound, heq, hgrown⟩ := h.fits fun n hn =>
      (hiff n).mp (hall _ (mem_map_of_mem _ hn))
    refine ⟨hsound, ?_, fun n hn => ?_⟩
    · rw [heq]
      cases ideal with
      | none =>
        -- the node that was there is stored again
        obtain ⟨hlt, hc⟩ := List.getElem?_eq_some_iff.mp hget
        simp [← hc]
      | some n => rfl
    obtain ⟨c, hc, rfl⟩ := map_eq_some_iff.mp hn
    exact Grown.set hcap hkids (hgrown c hc) i rfl rfl
  · rintro n hn hno
    obtain ⟨c, hc, rfl⟩ := map_eq_some_iff.mp hn
    exact h.exceeds c hc ((hiff c).not.mp hno)

/-- An insertion at an index where there is no entry. The group is too large after it exactly when
the arrays had the greatest capacity and were full. -/
theorem tracks_missing (hold : g.Hold subs) (hcap : ChildArrays.GrownCap g.subIdCap)
    (hkids : ∀ n, some n ∈ g.subPtr → n.Grown) (hsmall : subs.length ≤ maxSiblings)
    (hmosts : ∀ s ∈ subs, s.2.toNode.AtMost maxSiblings) {i : ℕ} (hi : i ≤ subs.length)
    (x : UInt32) {accesses : List EntryAccess} {c : ArrayNode} (hsound : ∀ a ∈ accesses, a.Sound)
    (hc : c.Grown) (hmost : c.toNode.AtMost maxSiblings) :
    Tracks ((g.wordExpand i).1 ++ (g.wordExpand i).2.writeAccess i :: accesses,
        true, .group ((g.wordExpand i).2.wordWrite i x c)) (.group g)
      (some (.group ((g.expand i).write i x c))) := by
  have hcnt := hold.cnt
  have hnode := (hold.write_expand hi x c).toNode
  have hlen : ((subs.take i ++ (x, c) :: subs.drop i).map toSub).length = subs.length + 1 := by
    simp
    omega
  rcases Nat.lt_or_eq_of_le hsmall with hlt | hfull
  · have hwrite : (g.wordExpand i).2.wordWrite i x c = (g.expand i).write i x c := by
      rw [hold.wordExpand_eq hcap hlt]
      exact ChildArrays.wordWrite_eq (by rwa [ChildArrays.expand_subIdCnt, hcnt]) i x c
    rw [hwrite]
    refine .of_fits ?_ (Grown.write_expand hold hcap hkids hlt hc i x) ?_
    · intro a ha
      rcases mem_append.mp ha with ha | ha
      · exact hold.wordExpand_sound hcap hlt hi a ha
      · rcases mem_cons.mp ha with rfl | ha
        · exact hold.writeAccess_sound hcap hlt hi x c
        · exact hsound a ha
    · rw [hnode, MibNode.atMost_group_iff, hlen]
      refine ⟨hlt, fun s hs => ?_⟩
      obtain ⟨t, ht, rfl⟩ := mem_map.mp hs
      rcases mem_append.mp ht with ht | ht
      · exact hmosts t (mem_of_mem_take ht)
      · rcases mem_cons.mp ht with rfl | ht
        · exact hmost
        · exact hmosts t (mem_of_mem_drop ht)
  · refine .of_exceeds ⟨_, mem_append_right _ mem_cons_self, ?_⟩ ?_
    · rw [hold.writeAccess_full hcap hfull]
      rintro ⟨-, hwrong, -⟩
      omega
    rw [hnode, MibNode.atMost_group_iff, hlen]
    rintro ⟨hle, -⟩
    omega

end Group

/-- A bad traversal. -/
theorem tracks_none (node : ArrayNode) : Tracks ([], false, node) node none :=
  ⟨fun _ => ⟨by simp, rfl, by simp⟩, by simp⟩

/-- **Insertion** with counters of 16 bits. -/
theorem instanceInsert_tracks (callback : Int) {oid : Oid} {d : ℕ} {node : ArrayNode}
    (hp : node.Paired) (hwf : node.toNode.Wf d) (hlen : oid.length ≤ d) (hg : node.Grown)
    (hmost : node.toNode.AtMost maxSiblings) :
    Tracks (wordInstanceInsert callback oid node) node
      (arrayInstanceInsert callback oid node) := by
  induction oid generalizing d node with
  | nil => simpa [wordInstanceInsert, arrayInstanceInsert] using tracks_none node
  | cons x rest ih =>
    cases hp with
    | inst => simpa [wordInstanceInsert, arrayInstanceInsert] using tracks_none _
    | @group g subs hold hkids =>
      obtain ⟨hcap, hgrown⟩ : ChildArrays.GrownCap g.subIdCap ∧
          ∀ n, some n ∈ g.subPtr → n.Grown := by
        cases hg with
        | group hcap hgrown => exact ⟨hcap, hgrown⟩
      rw [hold.toNode] at hwf hmost
      obtain ⟨hd, hs, hsubs⟩ := MibNode.wf_group_iff.mp hwf
      obtain ⟨hsmall, hmosts⟩ := MibNode.atMost_group_iff.mp hmost
      rw [hold.subIds] at hs
      rw [length_map] at hsmall
      have hmosts' : ∀ s ∈ subs, s.2.toNode.AtMost maxSiblings := fun s hsub =>
        hmosts (toSub s) (mem_map_of_mem hsub)
      have hlen' : rest.length ≤ d - 1 := by
        rw [length_cons] at hlen
        omega
      -- a branch of new groups
      have hnew : Tracks (wordInstanceInsert callback rest (.group .new)) (.group .new)
          (arrayInstanceInsert callback rest (.group .new)) := by
        rcases Nat.eq_zero_or_pos rest.length with h0 | hpos
        · rw [length_eq_zero_iff.mp h0]
          simpa [wordInstanceInsert, arrayInstanceInsert] using tracks_none _
        · refine ih paired_new ?_ hlen' grown_new ?_
          · rw [toNode_new]
            exact MibNode.wf_nil (by omega)
          · rw [toNode_new]
            exact .group (Nat.zero_le _) (by simp)
      obtain ⟨accesses, c, hword, hideal, hsound, hc, hcmost⟩ := fresh_child hlen' hnew
      rw [wordInstanceInsert, arrayInstanceInsert]
      simp only [hword, hideal, map_some]
      -- a raw group, a sub-identifier that is present, one that is missing
      by_cases hraw : subs = []
      · subst hraw
        rw [if_pos (hold.isRaw_iff.mpr rfl), if_pos (hold.isRaw_iff.mpr rfl)]
        exact tracks_raw hold hcap hgrown x hsound hc hcmost
      · have hraw' : ¬g.isRaw = true := fun h => hraw (hold.isRaw_iff.mp h)
        rw [if_neg hraw', if_neg hraw']
        rcases hold.lookup hs x with ⟨i, hi, hsearch, hget⟩ | ⟨i, hi, hsearch⟩
        · have hkid := ih (hkids _ (getElem_mem hi))
            (hsubs (toSub subs[i]) (mem_map_of_mem (getElem_mem hi))) hlen'
            (hgrown _ (mem_of_getElem? hget)) (hmosts' _ (getElem_mem hi))
          simp only [hsearch, Int.natCast_nonneg, if_true, Int.toNat_natCast, hget]
          exact tracks_found hold hcap hgrown hsmall hmosts' hi hget hkid
        · have hneg : ¬ (0 : Int) ≤ -(i : Int) - 1 := by omega
          have hindex : (-(-(i : Int) - 1) - 1).toNat = i := by omega
          simp only [hsearch, hneg, if_false, hindex]
          exact tracks_missing hold hcap hgrown hsmall hmosts' hi x hsound hc hcmost

/-! ### Histories -/

/-- The trees along a history in which no group is too large. -/
structure InCapacity (tree : ArrayNode) : Prop where
  paired : tree.Paired
  reachable : tree.toNode.Reachable
  grown : tree.Grown
  most : tree.toNode.AtMost maxSiblings

theorem inCapacity_init : InCapacity mibInit := by
  have hroot : mibInit.toNode = .group [] := toNode_new
  refine ⟨paired_new, ?_, grown_new, ?_⟩
  · rw [hroot]
    exact .init
  · rw [hroot]
    exact .group (Nat.zero_le _) (by simp)

/-- **A registration** with counters of 16 bits. -/
theorem InCapacity.nodeReg (h : InCapacity tree) (oid : Oid) (callback : Int) :
    ((arrayNodeReg tree oid callback).2.toNode.AtMost maxSiblings →
        (∀ a ∈ (wordNodeReg tree oid callback).1, a.Sound) ∧
          (wordNodeReg tree oid callback).2 = arrayNodeReg tree oid callback ∧
          (arrayNodeReg tree oid callback).2.Grown) ∧
      (¬(arrayNodeReg tree oid callback).2.toNode.AtMost maxSiblings →
        ∃ a ∈ (wordNodeReg tree oid callback).1, ¬a.Sound) := by
  rw [wordNodeReg, arrayNodeReg]
  split
  · exact ⟨fun _ => ⟨by simp, rfl, h.grown⟩, fun hno => absurd h.most hno⟩
  · split
    · exact ⟨fun _ => ⟨by simp, rfl, h.grown⟩, fun hno => absurd h.most hno⟩
    · next hle =>
        have hinsert := instanceInsert_tracks callback h.paired h.reachable.wf (not_lt.mp hle)
          h.grown h.most
        cases hideal : arrayInstanceInsert callback oid tree with
        | none =>
          rw [hideal] at hinsert
          obtain ⟨hsound, heq, -⟩ := hinsert.fits (by simp)
          refine ⟨fun _ => ⟨hsound, ?_, h.grown⟩, fun hno => absurd h.most hno⟩
          simp [heq]
        | some tree' =>
          rw [hideal] at hinsert
          refine ⟨fun hmost => ?_, hinsert.exceeds tree' rfl⟩
          obtain ⟨hsound, heq, hgrown⟩ := hinsert.fits (by rintro n ⟨⟩; exact hmost)
          refine ⟨hsound, ?_, hgrown tree' rfl⟩
          simp [heq]

/-- Unregistering leaves no group too large. -/
theorem InCapacity.nodeUnreg (h : InCapacity tree) (oid : Oid) :
    InCapacity (arrayNodeUnreg tree oid) := by
  obtain ⟨hpaired, hreach⟩ := (TreeOp.unreg oid).apply_refines h.paired h.reachable
  refine ⟨hpaired, hreach, ?_, ?_⟩
  · rw [arrayNodeUnreg]
    split
    · exact h.grown.deleteAt _
    · exact h.grown
  · rw [(h.paired.nodeUnreg h.reachable.wf oid).1, mibNodeUnreg]
    split
    · exact h.most.deleteAt _
    · exact h.most

/-- A call that leaves no group too large. -/
theorem InCapacity.next (h : InCapacity tree) {op : TreeOp}
    (hmost : (op.apply tree).toNode.AtMost maxSiblings) :
    InCapacity (op.apply tree) ∧ (wordApply tree op).2 = op.apply tree ∧
      ∀ a ∈ (wordApply tree op).1, a.Sound := by
  cases op with
  | reg oid callback =>
    obtain ⟨hsound, heq, hgrown⟩ := (h.nodeReg oid callback).1 hmost
    obtain ⟨hpaired, hreach⟩ := (TreeOp.reg oid callback).apply_refines h.paired h.reachable
    exact ⟨⟨hpaired, hreach, hgrown, hmost⟩, congrArg Prod.snd heq, hsound⟩
  | unreg oid => exact ⟨h.nodeUnreg oid, rfl, by simp [wordApply]⟩

/-- A call that leaves one. -/
theorem InCapacity.exceeds (h : InCapacity tree) {op : TreeOp}
    (hmost : ¬(op.apply tree).toNode.AtMost maxSiblings) :
    ∃ a ∈ (wordApply tree op).1, ¬a.Sound := by
  cases op with
  | reg oid callback => exact (h.nodeReg oid callback).2 hmost
  | unreg oid => exact absurd (h.nodeUnreg oid).most hmost

/-- **A history** from a tree in which no group is too large. -/
theorem InCapacity.run_iff (h : InCapacity tree) (ops : List TreeOp) :
    (∀ a ∈ (wordRun tree ops).1, a.Sound) ↔
      ∀ pre, pre <+: ops → (pre.foldl TreeOp.apply tree).toNode.AtMost maxSiblings := by
  induction ops generalizing tree with
  | nil =>
    refine iff_of_true (by simp [wordRun]) fun pre hpre => ?_
    rw [prefix_nil.mp hpre]
    exact h.most
  | cons op ops ih =>
    by_cases hmost : (op.apply tree).toNode.AtMost maxSiblings
    · obtain ⟨hnext, heq, hsound⟩ := h.next hmost
      have hrun : (wordRun tree (op :: ops)).1 =
          (wordApply tree op).1 ++ (wordRun (op.apply tree) ops).1 := by
        rw [wordRun, heq]
      rw [hrun]
      constructor
      · intro hall pre hpre
        rcases prefix_cons_iff.mp hpre with rfl | ⟨pre', rfl, hpre'⟩
        · exact h.most
        · exact (ih hnext).mp (fun a ha => hall a (mem_append_right _ ha)) pre' hpre'
      · intro hall a ha
        rcases mem_append.mp ha with ha | ha
        · exact hsound a ha
        · refine (ih hnext).mpr (fun pre hpre => ?_) a ha
          exact hall (op :: pre) ((prefix_cons_inj op).mpr hpre)
    · refine iff_of_false ?_ ?_
      · intro hall
        obtain ⟨a, ha, hno⟩ := h.exceeds hmost
        exact hno (hall a (mem_append_left _ ha))
      · intro hall
        exact hmost (hall [op] (prefix_append [op] ops))

theorem InCapacity.run (h : InCapacity tree) {ops : List TreeOp}
    (hmost : ∀ pre, pre <+: ops → (pre.foldl TreeOp.apply tree).toNode.AtMost maxSiblings) :
    (wordRun tree ops).2 = ops.foldl TreeOp.apply tree ∧
      InCapacity (ops.foldl TreeOp.apply tree) := by
  induction ops generalizing tree with
  | nil => exact ⟨rfl, h⟩
  | cons op ops ih =>
    obtain ⟨hnext, heq, -⟩ := h.next (hmost [op] (prefix_append [op] ops))
    rw [wordRun, foldl_cons, heq]
    exact ih hnext fun pre hpre => hmost (op :: pre) ((prefix_cons_inj op).mpr hpre)

end ArrayNode

/-- **The counters of 16 bits** make no difference as long as no group is too large: the tree is
the one of `SmithSnmp.MibArrays`. -/
theorem wordRun_eq_treeAfter {ops : List TreeOp}
    (hmost : ∀ pre, pre <+: ops → (treeAfter pre).toNode.AtMost maxSiblings) :
    (wordRun mibInit ops).2 = treeAfter ops :=
  (ArrayNode.inCapacity_init.run hmost).1

/-- **The child arrays.** In every history of registrations and unregistrations, all entries that
an insertion uses are inside of the arrays and `sub_id_cap` is the number of their elements, if and
only if there is never a group of more than 47421 sub-nodes. -/
theorem childArrays_sound_iff (ops : List TreeOp) :
    (∀ a ∈ (wordRun mibInit ops).1, a.Sound) ↔
      ∀ pre, pre <+: ops → (treeAfter pre).toNode.AtMost maxSiblings :=
  ArrayNode.inCapacity_init.run_iff ops

/-! ### Many siblings -/

/-- Registrations of `0`, `1` and so on below the root. -/
def siblingOps (n : ℕ) : List TreeOp := (List.range n).map fun k => .reg [UInt32.ofNat k] 0

/-- The sub-nodes of the root after them. -/
def siblings (n : ℕ) : List (UInt32 × ArrayNode) :=
  (List.range n).map fun k => (UInt32.ofNat k, .inst 0)

@[simp] theorem siblings_length (n : ℕ) : (siblings n).length = n := by simp [siblings]

theorem siblings_succ (n : ℕ) : siblings (n + 1) = siblings n ++ [(UInt32.ofNat n, .inst 0)] := by
  rw [siblings, range_succ, map_append]
  rfl

/-- The next sub-identifier belongs behind all others. -/
theorem oidBinarySearch_siblings (hn : n < 2 ^ 32) :
    oidBinarySearch ((siblings n).map Prod.fst) (UInt32.ofNat n) = -(n : ℤ) - 1 := by
  have hless : ∀ x ∈ (siblings n).map Prod.fst, x < UInt32.ofNat n := by
    intro x hx
    obtain ⟨s, hs, rfl⟩ := mem_map.mp hx
    obtain ⟨k, hk, rfl⟩ := mem_map.mp hs
    have hkn := mem_range.mp hk
    rw [UInt32.lt_iff_toNat_lt, UInt32.toNat_ofNat_of_lt' (by rw [UInt32.size]; omega),
      UInt32.toNat_ofNat_of_lt' (by rw [UInt32.size]; omega)]
    exact hkn
  have h := oidBinarySearch_missing hless (r := []) (by simp)
  rwa [append_nil, length_map, siblings_length] at h

/-- One more of them. -/
theorem wordApply_sibling {g : ChildArrays ArrayNode} (hn : n < 2 ^ 32) (hpos : 0 < n)
    (hcnt : g.subIdCnt = n) (hids : g.ids = (siblings n).map Prod.fst) :
    wordApply (.group g) (.reg [UInt32.ofNat n] 0) =
      ((g.wordExpand n).1 ++ [(g.wordExpand n).2.writeAccess n],
        .group ((g.wordExpand n).2.wordWrite n (UInt32.ofNat n) (.inst 0))) := by
  have hraw : ¬g.isRaw = true := by
    rw [ChildArrays.isRaw, decide_eq_true_iff]
    rintro ⟨-, h0⟩
    omega
  have hneg : ¬ (0 : Int) ≤ -(n : Int) - 1 := by omega
  have hindex : (-(-(n : Int) - 1) - 1).toNat = n := by omega
  have hinsert : wordInstanceInsert 0 [UInt32.ofNat n] (.group g) =
      ((g.wordExpand n).1 ++ [(g.wordExpand n).2.writeAccess n],
        true, .group ((g.wordExpand n).2.wordWrite n (UInt32.ofNat n) (.inst 0))) := by
    rw [wordInstanceInsert]
    simp only [length_nil, if_true, hraw, Bool.false_eq_true, if_false, hids,
      oidBinarySearch_siblings hn, hneg, hindex]
  rw [wordApply, wordNodeReg, if_neg (by simp), if_neg (by simp [asn1OidMaxLen]), hinsert]

theorem wordRun_append (tree : ArrayNode) (ops ops' : List TreeOp) :
    wordRun tree (ops ++ ops') =
      ((wordRun tree ops).1 ++ (wordRun (wordRun tree ops).2 ops').1,
        (wordRun (wordRun tree ops).2 ops').2) := by
  induction ops generalizing tree with
  | nil => rfl
  | cons op ops ih =>
    rw [cons_append, wordRun, ih, wordRun]
    simp only [append_assoc]

theorem wordRun_singleton (tree : ArrayNode) (op : TreeOp) :
    wordRun tree [op] = wordApply tree op := by
  rw [wordRun, wordRun, append_nil]

theorem mem_wordRun_concat {ops : List TreeOp} {a : EntryAccess} {oid : Oid} {callback : Int}
    (h : a ∈ (wordNodeReg (wordRun tree ops).2 oid callback).1) :
    a ∈ (wordRun tree (ops ++ [.reg oid callback])).1 := by
  rw [wordRun_append, wordRun_singleton]
  exact mem_append_right _ h

theorem siblingOps_succ (n : ℕ) :
    siblingOps (n + 1) = siblingOps n ++ [.reg [UInt32.ofNat n] 0] := by
  rw [siblingOps, range_succ, map_append]
  rfl

/-- The sub-nodes with the next one behind them. -/
theorem siblings_insert (n : ℕ) :
    (siblings n).take n ++ (UInt32.ofNat n, ArrayNode.inst 0) :: (siblings n).drop n =
      siblings (n + 1) := by
  rw [take_of_length_le (by simp), drop_of_length_le (by simp), siblings_succ]

/-- The root after them, as long as there are not too many. -/
theorem wordRun_siblingOps (hpos : 0 < n) (hle : n ≤ maxSiblings) :
    ∃ g, (wordRun mibInit (siblingOps n)).2 = .group g ∧ g.Hold (siblings n) ∧
      ChildArrays.GrownCap g.subIdCap := by
  induction n, hpos using Nat.le_induction with
  | base =>
    refine ⟨ChildArrays.write .new 0 0 (ArrayNode.inst 0), rfl, ?_, ⟨0, by omega, rfl⟩⟩
    exact ChildArrays.hold_new.write_raw 0 (ArrayNode.inst 0)
  | succ n hpos ih =>
    obtain ⟨g, hrun, hold, hcap⟩ := ih (by omega)
    have hcnt : g.subIdCnt = n := by rw [hold.cnt, siblings_length]
    have hlt : (siblings n).length < maxSiblings := by rw [siblings_length]; omega
    have hnew := hold.write_expand (show n ≤ (siblings n).length by simp) (UInt32.ofNat n)
      (.inst 0)
    rw [siblings_insert] at hnew
    rw [maxSiblings] at hle
    refine ⟨_, ?_, hnew, hold.grownCap_expand hcap hlt n⟩
    rw [siblingOps_succ, wordRun_append, hrun, wordRun_singleton,
      wordApply_sibling (by omega) hpos hcnt hold.ids, hold.wordExpand_eq hcap hlt,
      ChildArrays.wordWrite_eq]
    rw [ChildArrays.expand_subIdCnt, hcnt, maxSiblings]
    omega

/-- The root after one more. -/
theorem wordRun_siblingOps_full :
    ∃ g accesses, wordRun mibInit (siblingOps 47422) =
        (accesses ++ [.write 47421 71134 71134 5598], .group g) ∧
      g.subIdCap = 5598 ∧ g.subIdCnt = 47422 ∧ g.ids = (siblings 47422).map Prod.fst := by
  obtain ⟨g, hrun, hold, hcap⟩ := wordRun_siblingOps (n := 47421) (by decide) (by decide)
  have hcnt : g.subIdCnt = 47421 := by rw [hold.cnt, siblings_length]
  have hfull : (siblings 47421).length = maxSiblings := siblings_length _
  have hcall := wordApply_sibling (by decide) (by decide) hcnt hold.ids
  rw [hold.writeAccess_full hcap hfull] at hcall
  obtain ⟨hgrown, -, -⟩ := hold.wordExpand_full hcap hfull 47421
  have hnew := (hold.write_expand (show 47421 ≤ (siblings 47421).length by simp)
    (UInt32.ofNat 47421) (.inst 0)).ids
  rw [siblings_insert, ChildArrays.ids, ChildArrays.write, ChildArrays.expand_subIdCnt,
    hcnt] at hnew
  have hcnt' : ((g.wordExpand 47421).2.subIdCnt + 1) % 2 ^ 16 = 47422 := by
    rw [hgrown, ChildArrays.expand_subIdCnt, hcnt]
    rfl
  refine ⟨(g.wordExpand 47421).2.wordWrite 47421 (UInt32.ofNat 47421) (.inst 0),
    (wordRun mibInit (siblingOps 47421)).1 ++ (g.wordExpand 47421).1, ?_, ?_, hcnt', ?_⟩
  · rw [siblingOps_succ, wordRun_append, hrun, wordRun_singleton, hcall, append_assoc]
  · rw [ChildArrays.wordWrite, hgrown]
  · rw [ChildArrays.ids, ChildArrays.wordWrite, hcnt', hgrown]
    exact hnew

theorem mem_wordNodeReg_sibling :
    .write 8400 8400 8400 8400 ∈
      (wordNodeReg (wordRun mibInit (siblingOps 47422)).2 [UInt32.ofNat 47422] 0).1 := by
  obtain ⟨g, accesses, hrun, hcap, hcnt, hids⟩ := wordRun_siblingOps_full
  have hcopy := ChildArrays.write_mem_wordExpand (g := g) (by omega)
    (show 8400 < g.subIdCnt by omega) (show 8400 < 47422 by decide)
  have helems : ChildArrays.allocNr g.subIdCap = 8400 := by
    rw [hcap]
    rfl
  rw [helems] at hcopy
  have hcall := congrArg Prod.fst (wordApply_sibling (by decide) (by decide) hcnt hids)
  rw [wordApply] at hcall
  rw [hrun, hcall]
  exact mem_append_left _ hcopy

/-- With 47422 sub-nodes `sub_id_cap` says 5598 for arrays of 71134 elements, and for the next one
all entries are copied into arrays of 8400 elements, beyond their end. -/
theorem siblings_overflow :
    .write 47421 71134 71134 5598 ∈ (wordRun mibInit (siblingOps 47422)).1 ∧
      .write 8400 8400 8400 8400 ∈ (wordRun mibInit (siblingOps 47423)).1 ∧
      ¬(EntryAccess.write 47421 71134 71134 5598).Sound ∧
      ¬(EntryAccess.write 8400 8400 8400 8400).Sound := by
  obtain ⟨g, accesses, hrun, -⟩ := wordRun_siblingOps_full
  refine ⟨?_, ?_, by simp [EntryAccess.Sound], by simp [EntryAccess.Sound]⟩
  · rw [hrun]
    exact mem_append_right _ mem_cons_self
  · rw [siblingOps_succ]
    exact mem_wordRun_concat mem_wordNodeReg_sibling

end SmithSnmp
