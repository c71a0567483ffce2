import SmithSnmp.MibArrays
import SmithSnmp.MibNext

/-!
# The Backlog Stacks

`mib_tree_search_next` and `__mib_tree_delete` traverse the tree with a stack `nbl_stack` of
`ASN1_OID_MAX_LEN` entries on the C stack and never check it. This module follows the states
of the two loops: every entry stands for a group on the path to the current node, so the stack
is no higher than the longest path.

## Main results

* `SearchState.Within.next`, `DeleteState.Within.next`: one round of a loop keeps its stack
  within the length of the paths.
* `mibTree_representation`: the representation invariant after any history of registrations
  and unregistrations, with what follows for the registered OIDs and the two stacks.
-/

namespace SmithSnmp

open Lib MibNode Option

variable {d : ℕ} {st st' : SearchState} {root : MibNode}

/-- The property holds of every element of a stack, at its height above the bottom. -/
def AtHeights {α : Type} (P : ℕ → α → Prop) : List α → Prop
  | [] => True
  | a :: stack => P stack.length a ∧ AtHeights P stack

/-! ### GETNEXT -/

/-- The state with which the loop goes on when it does not return; `none` at the end of the
traversal. -/
def SearchState.next (st : SearchState) : Option SearchState :=
  match st.node with
  | some (.group subs) =>
    match st.groupRound subs with
    | some st' => some st'
    | none => st.backtrack
  | _ => st.backtrack

/-- The states in which the loop of a search can be. -/
inductive SearchReaches (root : MibNode) (view orig : Oid) : SearchState → Prop
  | start : SearchReaches root view orig (searchStart root view orig)
  | next {st st' : SearchState} :
      SearchReaches root view orig st → st.next = some st' → SearchReaches root view orig st'

/-- The stack and the current node fit in paths of length `d`. -/
structure SearchState.Within (d : ℕ) (st : SearchState) : Prop where
  stack : AtHeights (fun k e => k < d ∧ ∀ n ∈ e.1, Wf (d - k) n) st.stack
  node : ∀ n ∈ st.node, Wf (d - st.stack.length) n

/-- A stack whose entries are below height `d` has at most `d` of them. -/
theorem AtHeights.length_le {α : Type} {P : ℕ → α → Prop} {stack : List α} (h : AtHeights P stack)
    (hP : ∀ k a, P k a → k < d) : stack.length ≤ d := by
  cases stack with
  | nil => exact Nat.zero_le d
  | cons a stack => exact hP _ _ h.1

theorem SearchState.Within.descend {subs : List (UInt32 × MibNode)} (h : st.Within d)
    (hnode : st.node = some (.group subs)) (i : ℕ) : (st.descend subs i).Within d := by
  have hwf := h.node _ hnode
  obtain ⟨hd, -, hsubs⟩ := wf_group_iff.mp hwf
  have hlt : st.stack.length < d := by omega
  constructor
  · refine ⟨⟨hlt, fun n hn => ?_⟩, h.stack⟩
    split at hn
    · cases hn
    · obtain rfl := some.inj hn
      exact hwf
  · intro n hn
    obtain ⟨s, hs, rfl⟩ := map_eq_some_iff.mp hn
    have := hsubs s (List.mem_of_getElem? hs)
    rwa [Nat.sub_sub] at this

theorem SearchState.Within.groupRound {subs : List (UInt32 × MibNode)} (h : st.Within d)
    (hnode : st.node = some (.group subs)) (hround : st.groupRound subs = some st') :
    st'.Within d := by
  -- every way on from a group is a descent, up to the mode and the rest of the OID
  have hdescend : ∀ st₁ : SearchState, st₁.node = st.node → st₁.stack = st.stack →
      ∀ i, (st₁.descend subs i).Within d := by
    intro st₁ hnode₁ hstack₁ i
    refine SearchState.Within.descend ⟨?_, ?_⟩ (hnode₁.trans hnode) i
    · rw [hstack₁]
      exact h.stack
    · rw [hnode₁, hstack₁]
      exact h.node
  rw [SearchState.groupRound] at hround
  split at hround
  · obtain rfl := some.inj hround
    exact hdescend { st with pNbl := none } rfl rfl _
  · dsimp only at hround
    split at hround
    · split at hround
      · cases hround
      · split at hround
        · obtain rfl := some.inj hround
          exact ⟨h.stack, h.node⟩
        · obtain rfl := some.inj hround
          exact hdescend { st with immediate := true, rest := st.rest.tail } rfl rfl _
    · have hwithin := hdescend { st with rest := st.rest.tail } rfl rfl
        (oidBinarySearch (subIds subs) (st.rest.headD 0)).toNat
      split at hround
      · obtain rfl := some.inj hround
        exact ⟨hwithin.stack, hwithin.node⟩
      · obtain rfl := some.inj hround
        exact hwithin

/-- Backtracking takes an entry off the stack. -/
theorem SearchState.Within.backtrack (h : st.Within d) (hback : st.backtrack = some st') :
    st'.Within d := by
  have hstack := h.stack
  rw [SearchState.backtrack] at hback
  rcases hst : st.stack with _ | ⟨⟨node, nIdx⟩, stack⟩
  · rw [hst] at hback
    cases hback
  · rw [hst] at hback hstack
    obtain rfl := some.inj hback
    exact ⟨hstack.2, hstack.1.2⟩

/-- **Step lemma.** A round of the loop keeps the stack within the paths. -/
theorem SearchState.Within.next (h : st.Within d) (hnext : st.next = some st') : st'.Within d := by
  rw [SearchState.next] at hnext
  split at hnext
  · next subs hnode =>
      split at hnext
      · next hround =>
          obtain rfl := some.inj hnext
          exact h.groupRound hnode hround
      · exact h.backtrack hnext
  · exact h.backtrack hnext

/-- **Run lemma.** In a tree with paths of length at most `d`, a search never has more than
`d` entries on its stack. -/
theorem SearchReaches.within (hwf : root.Wf d) {view orig : Oid}
    (h : SearchReaches root view orig st) : st.Within d := by
  induction h with
  | start =>
    obtain ⟨p, -, hleads, -⟩ := mibTreeWalk_leads hwf view
    have hnode : Wf d (mibTreeWalk view root).1 := hleads.wf_same hwf
    rw [searchStart]
    dsimp only
    split
    · exact ⟨trivial, fun n hn => some.inj hn ▸ hnode⟩
    · split
      · exact ⟨trivial, fun n hn => some.inj hn ▸ hnode⟩
      · exact ⟨trivial, fun n hn => by cases hn⟩
  | next _ hnext ih => exact ih.next hnext

/-! ### Deletion -/

/-- What `__mib_tree_delete` frees: nodes at a place below the deleted one, given by child
indices, an instance node with the reference of its handler. -/
inductive Freed where
  | group (place : List ℕ)
  | inst (place : List ℕ) (callback : Int)
deriving DecidableEq, Repr

/-- The variables of `__mib_tree_delete`, with the places of the nodes. A stack entry is a
backlogged group with the index of its next sub-node, where `none` is -1. -/
structure DeleteState where
  node : Option (List ℕ × MibNode)
  /-- `p_nbl->n_idx`, when `p_nbl` is set -/
  pNbl : Option (Option ℕ) := none
  /-- `nbl_stack` below `top`, the top first -/
  stack : List ((List ℕ × MibNode) × Option ℕ) := []
  /-- what was freed so far -/
  freed : List Freed := []

/-- Backtracking; `none` at the end of the traversal. -/
def DeleteState.backtrack (st : DeleteState) : Option DeleteState :=
  match st.stack with
  | [] => none
  | (node, nIdx) :: stack =>
    some { st with node := some node, pNbl := some nIdx, stack := stack }

/-- One round of the loop. -/
def DeleteState.next (st : DeleteState) : Option DeleteState :=
  match st.node with
  | none => st.backtrack
  | some (place, .inst callback) =>
    { st with freed := st.freed ++ [Freed.inst place callback] }.backtrack
  | some (place, .group subs) =>
    match st.pNbl.getD (some 0) with
    | none => { st with pNbl := none, freed := st.freed ++ [Freed.group place] }.backtrack
    | some i =>
      some { st with
        node := subs[i]?.map fun s => (place ++ [i], s.2)
        pNbl := none
        stack := ((place, .group subs), if subs.length ≤ i + 1 then none else some (i + 1)) ::
          st.stack }

/-- The node at the end of the child indices. -/
def nodeAt : List ℕ → MibNode → Option MibNode
  | [], node => some node
  | _ :: _, .inst _ => none
  | i :: is, .group subs =>
    match subs[i]? with
    | some (_, node) => nodeAt is node
    | none => none

/-- The states in which the loop of `__mib_tree_delete` can be when `oid` is unregistered. The
dummy root node is not deleted. -/
inductive DeleteReaches (root : MibNode) (oid : Oid) : DeleteState → Prop
  | start {i : ℕ} {is : List ℕ} :
      mibTreeNodeSearch oid root = some (i :: is) →
        DeleteReaches root oid { node := (nodeAt (i :: is) root).map ([], ·) }
  | next {st st' : DeleteState} :
      DeleteReaches root oid st → st.next = some st' → DeleteReaches root oid st'

/-- The stack and the current node fit in paths of length `d`. -/
structure DeleteState.Within (d : ℕ) (st : DeleteState) : Prop where
  stack : AtHeights (fun k e => k < d ∧ Wf (d - k) e.1.2) st.stack
  node : ∀ n ∈ st.node, Wf (d - st.stack.length) n.2

/-- Backtracking takes an entry off the stack. -/
theorem DeleteState.Within.backtrack {st st' : DeleteState} (h : st.Within d)
    (hback : st.backtrack = some st') : st'.Within d := by
  have hstack := h.stack
  rw [DeleteState.backtrack] at hback
  rcases hst : st.stack with _ | ⟨⟨node, nIdx⟩, stack⟩
  · rw [hst] at hback
    cases hback
  · rw [hst] at hback hstack
    obtain rfl := some.inj hback
    exact ⟨hstack.2, fun n hn => some.inj hn ▸ hstack.1.2⟩

/-- **Step lemma.** A round of the loop keeps the stack within the paths. -/
theorem DeleteState.Within.next {st st' : DeleteState} (h : st.Within d)
    (hnext : st.next = some st') : st'.Within d := by
  rw [DeleteState.next] at hnext
  split at hnext
  · exact h.backtrack hnext
  · exact DeleteState.Within.backtrack (by exact ⟨h.stack, h.node⟩) hnext
  · next place subs hnode =>
      split at hnext
      · exact DeleteState.Within.backtrack (by exact ⟨h.stack, h.node⟩) hnext
      · obtain rfl := some.inj hnext
        have hwf := h.node _ hnode
        obtain ⟨hd, -, hsubs⟩ := wf_group_iff.mp hwf
        have hlt : st.stack.length < d := by omega
        refine ⟨⟨⟨hlt, hwf⟩, h.stack⟩, fun n hn => ?_⟩
        obtain ⟨s, hs, rfl⟩ := map_eq_some_iff.mp hn
        have := hsubs s (List.mem_of_getElem? hs)
        rwa [Nat.sub_sub] at this

/-- The nodes of a well-formed tree are well-formed. -/
theorem wf_nodeAt {is : List ℕ} {node : MibNode} (hwf : root.Wf d)
    (h : nodeAt is root = some node) :
    node.Wf (d - is.length) := by
  induction is generalizing d root with
  | nil => exact some.inj h ▸ hwf
  | cons i is ih =>
    cases root with
    | inst callback => cases h
    | group subs =>
      obtain ⟨-, -, hsubs⟩ := wf_group_iff.mp hwf
      rw [nodeAt] at h
      split at h
      · next x n hget =>
          have := ih (hsubs _ (List.mem_of_getElem? hget)) h
          rwa [Nat.sub_sub, Nat.add_comm 1] at this
      · cases h

/-- **Run lemma.** In a tree with paths of length at most `d`, a deletion never has more than
`d` entries on its stack. -/
theorem DeleteReaches.within (hwf : root.Wf d) {oid : Oid} {st : DeleteState}
    (h : DeleteReaches root oid st) : st.Within d := by
  induction h with
  | start =>
    refine ⟨trivial, fun n hn => ?_⟩
    obtain ⟨node, hnode, rfl⟩ := map_eq_some_iff.mp hn
    exact (wf_nodeAt hwf hnode).mono (Nat.sub_le ..)
  | next _ hnext ih => exact ih.next hnext

/-! ### The representation invariant -/

/-- **The representation invariant.** After any sequence of registrations and unregistrations
the arrays of every group are in order, no path is longer than `ASN1_OID_MAX_LEN`, no
registered OID is a prefix of another one, and the stacks of `mib_tree_search_next` and
`__mib_tree_delete` suffice for every search and every deletion. -/
theorem mibTree_representation (ops : List TreeOp) :
    (treeAfter ops).Wf asn1OidMaxLen ∧
      (registered (treeAfter ops).toNode).Pairwise (fun a b => ¬ a.1 <+: b.1 ∧ ¬ b.1 <+: a.1) ∧
      (∀ view orig st, SearchReaches (treeAfter ops).toNode view orig st →
        st.stack.length ≤ asn1OidMaxLen) ∧
      ∀ oid st, DeleteReaches (treeAfter ops).toNode oid st →
        st.stack.length ≤ asn1OidMaxLen := by
  obtain ⟨hpaired, hreach⟩ := treeAfter_refines ops
  have hwf := hreach.wf
  refine ⟨hpaired.wf hwf, ?_, ?_, ?_⟩
  · refine (registered_ordered hwf).imp ?_
    rintro a b ⟨hlt, hnp⟩
    exact ⟨hnp, fun hp => hlt.not_ge (le_of_extends hp)⟩
  · intro view orig st hst
    exact (hst.within hwf).stack.length_le fun _ _ he => he.1
  · intro oid st hst
    exact (hst.within hwf).stack.length_le fun _ _ he => he.1

end SmithSnmp
