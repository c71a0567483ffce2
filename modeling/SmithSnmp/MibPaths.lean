import SmithSnmp.MibSearch

/-!
# Paths of the MIB Tree

The instance nodes of a tree with their paths, and where the descent along an OID ends.

* `registered`: the instance nodes at and below a node, in the order of their paths.
* `MibNode.Leads`: a path leads from one node to another.

## Main results

* `registered_ordered`: the paths of instance nodes are ascending, and none extends
  another one.
* `mibTreeWalk_leads`: the descent along an OID ends where the tree has no way on.
* `MibNode.Leads.registered_iff`, `MibNode.Stuck.registered`: the instance nodes around an
  OID are those below the node where the descent along it ends.
-/

namespace SmithSnmp

open List Lib

variable {subs : List (UInt32 × MibNode)} {q p o : Oid} {callback : Int} {node root : MibNode}
  {d : ℕ}

/-! ### Registered instance nodes -/

mutual

/-- The instance nodes at and below a node, with their relative paths and handlers. -/
def registered : MibNode → List (Oid × Int)
  | .inst callback => [([], callback)]
  | .group subs => registeredSubs subs

/-- The instance nodes below the entries of a group. -/
def registeredSubs : List (UInt32 × MibNode) → List (Oid × Int)
  | [] => []
  | s :: subs => registeredSub s ++ registeredSubs subs

/-- The instance nodes below one entry of a group. -/
def registeredSub : UInt32 × MibNode → List (Oid × Int)
  | (x, node) => (registered node).map fun r => (x :: r.1, r.2)

end

@[simp] theorem registeredSubs_append (l r : List (UInt32 × MibNode)) :
    registeredSubs (l ++ r) = registeredSubs l ++ registeredSubs r := by
  induction l with
  | nil => rfl
  | cons s l ih => simp [registeredSubs, ih]

/-- An instance node of a group lies below one of its entries. -/
theorem mem_registeredSubs_iff :
    (q, callback) ∈ registeredSubs subs ↔
      ∃ x n q', (x, n) ∈ subs ∧ q = x :: q' ∧ (q', callback) ∈ registered n := by
  induction subs with
  | nil => simp [registeredSubs]
  | cons s subs ih =>
    obtain ⟨y, m⟩ := s
    simp only [registeredSubs, registeredSub, mem_append, mem_map, Prod.mk.injEq,
      ih, mem_cons]
    constructor
    · rintro (⟨⟨q', cb⟩, hm, rfl, rfl⟩ | ⟨x, n, q', hn, rfl, hq⟩)
      · exact ⟨y, m, q', .inl ⟨rfl, rfl⟩, rfl, hm⟩
      · exact ⟨x, n, q', .inr hn, rfl, hq⟩
    · rintro ⟨x, n, q', ⟨rfl, rfl⟩ | hn, rfl, hq⟩
      · exact .inl ⟨(q', callback), hq, rfl, rfl⟩
      · exact .inr ⟨x, n, q', hn, rfl, hq⟩

namespace MibNode

/-- The path leads from the first node to the second. -/
inductive Leads : MibNode → Oid → MibNode → Prop
  | here {node : MibNode} : Leads node [] node
  | down {subs : List (UInt32 × MibNode)} {x : UInt32} {n node : MibNode} {p : Oid} :
      (x, n) ∈ subs → Leads n p node → Leads (.group subs) (x :: p) node

/-- A descent cannot go on from the node with this rest of its OID. -/
def Stuck : MibNode → Oid → Prop
  | .inst _, _ => True
  | .group subs, rest => ∀ x ∈ rest.head?, x ∉ subIds subs

end MibNode

open MibNode

/-! ### The order of the paths -/

/-- **Paths ascend.** In a well-formed tree the instance nodes are listed in ascending
order of their paths, and no path extends another one. -/
theorem registered_ordered (h : node.Wf d) :
    (registered node).Pairwise fun a b => a.1 < b.1 ∧ ¬ a.1 <+: b.1 := by
  induction node using MibNode.induct generalizing d with
  | inst callback => simp [registered]
  | group subs ih =>
    obtain ⟨-, hsorted, hsubs⟩ := wf_group_iff.mp h
    rw [registered]
    clear h
    induction subs with
    | nil => simp [registeredSubs]
    | cons s subs ihs =>
      obtain ⟨x, n⟩ := s
      obtain ⟨hhead, htail⟩ := pairwise_cons.mp hsorted
      rw [registeredSubs, registeredSub, pairwise_append]
      refine ⟨?_, ?_, ?_⟩
      · rw [pairwise_map]
        refine (ih (x, n) (by simp) (hsubs (x, n) (by simp))).imp ?_
        rintro a b ⟨hlt, hnp⟩
        exact ⟨cons_lt_cons_iff.mpr (.inr ⟨rfl, hlt⟩), by simpa using hnp⟩
      · exact ihs (fun s hs => ih s (by simp [hs])) htail (fun s hs => hsubs s (by simp [hs]))
      · rintro a ha ⟨q, callback⟩ hb
        obtain ⟨a', -, rfl⟩ := mem_map.mp ha
        obtain ⟨y, m, q', hy, rfl, -⟩ := mem_registeredSubs_iff.mp hb
        have hxy : x < y := hhead y (mem_map_of_mem hy)
        exact ⟨cons_lt_cons_iff.mpr (.inl hxy), by simp [hxy.ne]⟩

/-- An entry of a strictly increasing group is determined by its sub-identifier. -/
theorem eq_of_mem_subs (hs : (subIds subs).Pairwise (· < ·)) {x : UInt32} {n m : MibNode}
    (hn : (x, n) ∈ subs) (hm : (x, m) ∈ subs) : n = m := by
  rcases subs_lookup hs x with ⟨l, k, r, rfl, hl, hr, -⟩ | ⟨l, r, rfl, hl, hr, -⟩
  · have hk : ∀ m, (x, m) ∈ l ++ (x, k) :: r → m = k := by
      intro m hm
      rcases mem_append.mp hm with hm | hm
      · exact absurd (hl _ hm) (lt_irrefl x)
      · rcases mem_cons.mp hm with hm | hm
        · exact (Prod.mk.inj hm).2
        · exact absurd (hr _ hm) (lt_irrefl x)
    rw [hk n hn, hk m hm]
  · rcases mem_append.mp hn with hn | hn
    · exact absurd (hl _ hn) (lt_irrefl x)
    · exact absurd (hr _ hn) (lt_irrefl x)

/-! ### Following a path -/

namespace MibNode

/-- Nodes of a well-formed tree have no longer paths than the tree. -/
theorem Leads.wf_same (h : Leads root p node) (hwf : root.Wf d) : node.Wf d := by
  induction h generalizing d with
  | here => exact hwf
  | down hmem _ ih =>
    obtain ⟨-, -, hsubs⟩ := wf_group_iff.mp hwf
    exact (ih (hsubs _ hmem)).mono (Nat.sub_le ..)

/-- A node on a path is well-formed when the first one is. -/
theorem Leads.wf (h : Leads root p node) (hwf : root.Wf d) : ∃ d', node.Wf d' :=
  ⟨d, h.wf_same hwf⟩

theorem nodeRounds_lt_of_mem {s : UInt32 × MibNode} (h : s ∈ subs) :
    nodeRounds s.2 < nodeRounds (.group subs) := by
  induction subs with
  | nil => simp at h
  | cons t subs ih =>
    obtain ⟨x, n⟩ := t
    simp only [nodeRounds, subsRounds, subRounds] at ih ⊢
    rcases mem_cons.mp h with rfl | h
    · dsimp only
      omega
    · have := ih h
      omega

/-- The traversal takes no more rounds below a node of the tree than below the root. -/
theorem Leads.rounds_le (h : Leads root p node) : nodeRounds node ≤ nodeRounds root := by
  induction h with
  | here => exact le_rfl
  | down hm _ ih => exact ih.trans (nodeRounds_lt_of_mem hm).le

/-- Instance nodes below a node of a path are instance nodes of the first one. -/
theorem Leads.registered_iff (h : Leads root p node) (hwf : root.Wf d) (q : Oid) (callback : Int) :
    (p ++ q, callback) ∈ registered root ↔ (q, callback) ∈ registered node := by
  induction h generalizing d with
  | here => simp
  | @down subs x n node p hm _ ih =>
    obtain ⟨-, hsorted, hsubs⟩ := wf_group_iff.mp hwf
    rw [registered, mem_registeredSubs_iff, ← ih (hsubs _ hm)]
    constructor
    · rintro ⟨y, m, q', hy, heq, hq⟩
      obtain ⟨rfl, rfl⟩ := List.cons.inj heq
      rwa [eq_of_mem_subs hsorted hm hy]
    · intro hq
      exact ⟨x, n, p ++ q, hm, rfl, hq⟩

/-- No instance node lies above another node: one on the way to a node is that node. -/
theorem Leads.registered_above (h : Leads root p node) (hwf : root.Wf d)
    (hq : (q, callback) ∈ registered root) (hpre : q <+: p) : q = p := by
  induction h generalizing d q with
  | here => exact prefix_nil.mp hpre
  | @down subs x n node p hm _ ih =>
    obtain ⟨-, hsorted, hsubs⟩ := wf_group_iff.mp hwf
    obtain ⟨y, m, q', hy, rfl, hq'⟩ := mem_registeredSubs_iff.mp hq
    obtain ⟨rfl, hpre'⟩ := cons_prefix_cons.mp hpre
    obtain rfl := eq_of_mem_subs hsorted hm hy
    rw [ih (hsubs _ hm) hq' hpre']

theorem Stuck.registered {rest : Oid} (h : Stuck node rest)
    (hq : (q, callback) ∈ SmithSnmp.registered node) (hro : rest <+: o) (hqo : q <+: o)
    (hg : node.isGroup = true) : rest = [] := by
  cases node with
  | inst cb => simp [isGroup] at hg
  | group subs =>
    obtain ⟨y, m, q', hy, rfl, -⟩ := mem_registeredSubs_iff.mp hq
    cases rest with
    | nil => rfl
    | cons x rest =>
      obtain ⟨o', rfl⟩ := hro
      obtain ⟨rfl, -⟩ := cons_prefix_cons.mp hqo
      exact absurd (mem_map_of_mem hy) (h y (by simp))

end MibNode

/-- **Descent.** The descent along an OID follows a path as far as the tree goes. -/
theorem mibTreeWalk_leads (hwf : root.Wf d) (o : Oid) :
    ∃ p, o = p ++ (mibTreeWalk o root).2 ∧ Leads root p (mibTreeWalk o root).1 ∧
      Stuck (mibTreeWalk o root).1 (mibTreeWalk o root).2 := by
  induction o generalizing root d with
  | nil =>
    refine ⟨[], by cases root <;> rfl, by cases root <;> exact Leads.here, ?_⟩
    cases root <;> simp [mibTreeWalk, Stuck]
  | cons x o ih =>
    cases root with
    | inst callback => exact ⟨[], rfl, Leads.here, trivial⟩
    | group subs =>
      obtain ⟨-, hsorted, hsubs⟩ := wf_group_iff.mp hwf
      rcases subs_lookup hsorted x with ⟨l, n, r, rfl, -, -, hi⟩ | ⟨l, r, rfl, hl, hr, hi⟩
      · have hwalk : mibTreeWalk (x :: o) (.group (l ++ (x, n) :: r)) = mibTreeWalk o n := by
          simp [mibTreeWalk, hi]
        obtain ⟨p, ho, hleads, hstuck⟩ := ih (hsubs (x, n) (by simp))
        rw [hwalk]
        exact ⟨x :: p, by rw [cons_append, ← ho], Leads.down (by simp) hleads, hstuck⟩
      · have hneg : ¬ (0 : Int) ≤ -(l.length : Int) - 1 := by omega
        have hwalk : mibTreeWalk (x :: o) (.group (l ++ r)) = (.group (l ++ r), x :: o) := by
          simp only [mibTreeWalk, hi, hneg, if_false]
        rw [hwalk]
        refine ⟨[], rfl, Leads.here, ?_⟩
        intro y hy hmem
        obtain rfl : x = y := by simpa using hy
        obtain ⟨s, hs, hsx⟩ := mem_map.mp hmem
        rcases mem_append.mp hs with hs | hs
        · exact absurd (hl s hs) (hsx ▸ lt_irrefl _)
        · exact absurd (hr s hs) (hsx ▸ lt_irrefl _)

/-- A descent that ends at an instance node found it registered. -/
theorem mibTreeWalk_inst (hwf : root.Wf d) {rest : Oid}
    (h : mibTreeWalk o root = (.inst callback, rest)) :
    ∃ p, o = p ++ rest ∧ (p, callback) ∈ registered root := by
  obtain ⟨p, ho, hleads, -⟩ := mibTreeWalk_leads hwf o
  rw [h] at ho hleads
  refine ⟨p, ho, ?_⟩
  simpa using (hleads.registered_iff hwf [] callback).mpr (by simp [registered])

/-- A descent along an OID below a registered instance node ends there. -/
theorem mibTreeWalk_registered (hwf : root.Wf d) (h : (p, callback) ∈ registered root) (x : Oid) :
    mibTreeWalk (p ++ x) root = (.inst callback, x) := by
  induction p generalizing root d with
  | nil =>
    cases root with
    | inst cb =>
      obtain rfl : callback = cb := by simpa [registered] using h
      cases x <;> rfl
    | group subs =>
      obtain ⟨y, m, q, -, hnil, -⟩ := mem_registeredSubs_iff.mp h
      cases hnil
  | cons y p ih =>
    cases root with
    | inst cb => simp [registered] at h
    | group subs =>
      obtain ⟨-, hsorted, hsubs⟩ := wf_group_iff.mp hwf
      obtain ⟨y', m, q, hy, heq, hq⟩ := mem_registeredSubs_iff.mp h
      obtain ⟨rfl, rfl⟩ := List.cons.inj heq
      rcases subs_lookup hsorted y with ⟨l, n, r, rfl, -, -, hi⟩ | ⟨l, r, rfl, hl, hr, -⟩
      · obtain rfl : m = n := eq_of_mem_subs hsorted hy (by simp)
        rw [cons_append]
        simp only [mibTreeWalk, hi]
        simpa using ih (hsubs _ hy) hq
      · rcases mem_append.mp hy with hy | hy
        · exact absurd (hl _ hy) (lt_irrefl y)
        · exact absurd (hr _ hy) (lt_irrefl y)

theorem leads_of_registered (hwf : root.Wf d) (h : (p, callback) ∈ registered root) :
    Leads root p (.inst callback) := by
  obtain ⟨q, hq, hleads, -⟩ := mibTreeWalk_leads hwf p
  have hwalk := mibTreeWalk_registered hwf h []
  rw [append_nil] at hwalk
  rw [hwalk, append_nil] at hq
  rwa [hwalk, ← hq] at hleads

/-- Two registered OIDs that one OID extends are the same. -/
theorem registered_unique (hwf : root.Wf d) {cp cq : Int} (hp : (p, cp) ∈ registered root)
    (hq : (q, cq) ∈ registered root) (hpo : p <+: o) (hqo : q <+: o) : p = q := by
  rcases prefix_or_prefix_of_prefix hpo hqo with h | h
  · exact (leads_of_registered hwf hq).registered_above hwf hp h
  · exact ((leads_of_registered hwf hp).registered_above hwf hq h).symm

/-- An OID is split in one way into the path of an instance node and the rest. -/
theorem registered_split (hwf : root.Wf d) {x y : Oid} {cp cq : Int}
    (hp : (p, cp) ∈ registered root) (hq : (q, cq) ∈ registered root) (heq : p ++ x = q ++ y) :
    p = q ∧ cp = cq ∧ x = y := by
  obtain rfl : p = q := registered_unique hwf hp hq (prefix_append p x)
    (heq ▸ prefix_append q y)
  obtain rfl : x = y := append_cancel_left heq
  have hwalk := (mibTreeWalk_registered hwf hp x).symm.trans (mibTreeWalk_registered hwf hq x)
  exact ⟨rfl, by simpa using hwalk, rfl⟩

end SmithSnmp
