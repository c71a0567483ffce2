import Mathlib.Logic.Function.Basic
import SmithSnmp.MibArrays
import SmithSnmp.Registration

/-!
# The MIB Tree in Memory

The tree of `core/mib_tree.c` as nodes at addresses. `mib_tree_instance_insert` allocates nodes
and `mib_tree_node_search` follows pointers; both read and write through pointers that could be
stale, so every access asks whether there is a node at the address.

A memory *lays out* a tree at an address when following the used entries of `sub_ptr` from there
gives the tree. The addresses met on the way are the footprint; as long as no address is met
twice, changing one node changes nothing else.

## Main results

* `Lays.mem_foot_iff`: the footprint is the set of nodes below the address.
* `Lays.nodeSearch`: the search in memory follows the one in the tree.
* `Lays.instanceInsert`: an insertion in memory is the insertion into the tree, at addresses that
  were free.
-/

namespace SmithSnmp

open List Lib MibNode

variable {a b : ℕ} {node : MibNode} {foot : List ℕ} {g : ChildArrays ℕ} {callback : Int}
  {rest : Oid}

/-! ### Nodes in memory -/

/-- A node in memory; the pointers of a group are addresses. -/
inductive Cell where
  | group (arrays : ChildArrays ℕ)
  | inst (callback : Int)

/-- The allocated nodes. -/
abbrev Heap := ℕ → Option Cell

/-- A node is written to an address. -/
def Heap.write (m : Heap) (a : ℕ) (c : Cell) : Heap := Function.update m a (some c)

/-- `free` of a node, with its arrays. -/
def Heap.free (m : Heap) (a : ℕ) : Heap := Function.update m a none

/-- `mib_dummy_node_init` -/
def mibDummyNodeInit (dummy : ℕ) : Heap := Heap.write (fun _ => none) dummy (.group .new)

/-- The branches of `mib_tree_instance_insert` that allocate a node for the sub-identifier `x` and
write it at `index` of the group at `a`, whose arrays are `g`: an instance node at the end of the
OID, else a group node with which the loop goes on. The address of the node is the first one of
`fresh`. There is no result when it is in use, which `malloc` excludes. -/
def heapAllocate (callback : Int) (x : UInt32) (rest : Oid) (a : ℕ) (fresh : List ℕ) (m : Heap)
    (goOn : ℕ → List ℕ → Heap → Option (Bool × Heap)) (g : ChildArrays ℕ) (index : ℕ) :
    Option (Bool × Heap) :=
  match fresh with
  | [] => none
  | b :: fresh =>
    if (m b).isSome then none
    else
      let m := m.write a (.group (g.write index x b))
      if rest.length = 0 then some (true, m.write b (.inst callback))
      else goOn b fresh (m.write b (.group .new))

/-- `mib_tree_instance_insert` from the node at `a` on: whether it returns an instance node, and
the memory. There is no result when a node is read that is not there. -/
def heapInstanceInsert (callback : Int) : Oid → ℕ → List ℕ → Heap → Option (Bool × Heap)
  | [], _, _, m => some (false, m)
  | x :: rest, a, fresh, m =>
    match m a with
    | none => none
    | some (.inst _) => some (false, m)
    | some (.group g) =>
      let allocate := heapAllocate callback x rest a fresh m fun b fresh m =>
        heapInstanceInsert callback rest b fresh m
      if g.isRaw then allocate g 0
      else
        let i := oidBinarySearch g.ids x
        if 0 ≤ i then
          match g.subPtr[i.toNat]? with
          | some (some b) => heapInstanceInsert callback rest b fresh m
          | _ => none
        else allocate (g.expand (-i - 1).toNat) (-i - 1).toNat

/-- `mib_node_reg` -/
def heapNodeReg (dummy : ℕ) (m : Heap) (oid : Oid) (callback : Int) (fresh : List ℕ) :
    Option (Int × Heap) :=
  if oid.length = 0 then some (-1, m)
  else if oid.length > asn1OidMaxLen then some (-1, m)
  else (heapInstanceInsert callback oid dummy fresh m).map fun r => (if r.1 then 0 else -1, r.2)

/-- `struct node_pair` -/
structure NodePair where
  parent : ℕ
  child : Option ℕ
  subIdx : ℕ
deriving DecidableEq

/-- The loop of `mib_tree_node_search`: the node that is returned and `pair`. There is no result
when a node is read that is not there. -/
def heapNodeSearch (m : Heap) : Oid → ℕ → Option ℕ → ℕ → Option (Option ℕ × NodePair)
  | [], parent, node, subIdx => some (node, ⟨parent, node, subIdx⟩)
  | _ :: _, parent, none, subIdx => some (none, ⟨parent, none, subIdx⟩)
  | x :: rest, parent, some a, subIdx =>
    match m a with
    | none => none
    | some (.inst _) =>
      some (if rest.length = 0 then some a else none, ⟨parent, some a, subIdx⟩)
    | some (.group g) =>
      let i := oidBinarySearch g.ids x
      if 0 ≤ i then
        match g.subPtr[i.toNat]? with
        | some node => heapNodeSearch m rest a node i.toNat
        | none => none
      else some (none, ⟨parent, some a, subIdx⟩)

/-- The nodes below an address, and the one there: those that the used entries of `sub_ptr` lead
to. -/
inductive Below (m : Heap) : ℕ → ℕ → Prop
  | here {a : ℕ} : Below m a a
  | down {a b c : ℕ} {g : ChildArrays ℕ} :
      m a = some (.group g) → some b ∈ g.ptrs → Below m b c → Below m a c

/-! ### Layouts -/

/-- A sub-node in memory: its sub-identifier and address, the tree laid out there and the
footprint of the tree. -/
structure Laid where
  id : UInt32
  addr : ℕ
  node : MibNode
  foot : List ℕ

/-- The entry of the arrays. -/
def Laid.entry (e : Laid) : UInt32 × ℕ := (e.id, e.addr)

/-- The pair of the tree. -/
def Laid.sub (e : Laid) : UInt32 × MibNode := (e.id, e.node)

/-- The memory lays out a tree at an address. The footprint lists every sub-tree before its
root. The first pointer of an empty group is `NULL`. -/
inductive Lays (m : Heap) : ℕ → MibNode → List ℕ → Prop
  | inst {a : ℕ} {callback : Int} : m a = some (.inst callback) → Lays m a (.inst callback) [a]
  | group {a : ℕ} {g : ChildArrays ℕ} {es : List Laid} :
      m a = some (.group g) → g.Hold (es.map Laid.entry) →
      (es = [] → g.subPtr.head? = some none) →
      (∀ e ∈ es, Lays m e.addr e.node e.foot) →
      Lays m a (.group (es.map Laid.sub)) (es.flatMap Laid.foot ++ [a])

variable {m m' : Heap}

/-- The layout depends on its footprint only. -/
theorem Lays.frame (h : Lays m a node foot) (hm : ∀ b ∈ foot, m' b = m b) :
    Lays m' a node foot := by
  induction h with
  | inst ha => exact .inst ((hm _ (by simp)).trans ha)
  | group ha hold hnull _ ih =>
    refine .group ((hm _ (by simp)).trans ha) hold hnull fun e he => ih e he fun b hb => ?_
    exact hm b (mem_append_left _ (mem_flatMap.mpr ⟨e, he, hb⟩))

theorem Lays.new (h : m a = some (.group .new)) : Lays m a (.group []) [a] := by
  have hold : (ChildArrays.new : ChildArrays ℕ).Hold (([] : List Laid).map Laid.entry) :=
    ChildArrays.hold_new
  exact Lays.group h hold (fun _ => rfl) (by simp)

/-- The root of a layout is in its footprint. -/
theorem Lays.mem_foot (h : Lays m a node foot) : a ∈ foot := by
  cases h <;> simp

/-- There is a node at every address of a footprint. -/
theorem Lays.allocated (h : Lays m a node foot) (hb : b ∈ foot) : m b ≠ none := by
  induction h with
  | inst ha =>
    obtain rfl := mem_singleton.mp hb
    simp [ha]
  | group ha _ _ _ ih =>
    rcases mem_append.mp hb with hb | hb
    · obtain ⟨e, he, hb⟩ := mem_flatMap.mp hb
      exact ih e he hb
    · obtain rfl := mem_singleton.mp hb
      simp [ha]

/-- **The footprint** is what is below the address. -/
theorem Lays.mem_foot_iff (h : Lays m a node foot) : b ∈ foot ↔ Below m a b := by
  induction h with
  | @inst a callback ha =>
    rw [mem_singleton]
    constructor
    · rintro rfl
      exact .here
    · intro hbelow
      cases hbelow with
      | here => rfl
      | down hg => rw [ha] at hg; cases hg
  | @group a g es ha hold _ _ ih =>
    have hptr : ∀ c, some c ∈ g.ptrs ↔ ∃ e ∈ es, e.addr = c := by
      intro c
      rw [hold.ptrs]
      simp [Laid.entry]
    simp only [mem_append, mem_flatMap, mem_singleton]
    constructor
    · rintro (⟨e, he, hb⟩ | rfl)
      · exact .down ha ((hptr _).mpr ⟨e, he, rfl⟩) ((ih e he).mp hb)
      · exact .here
    · intro hbelow
      cases hbelow with
      | here => exact .inr rfl
      | down hg hc hbelow =>
        rw [ha] at hg
        obtain rfl : g = _ := by simpa using hg
        obtain ⟨e, he, rfl⟩ := (hptr _).mp hc
        exact .inl ⟨e, he, (ih e he).mpr hbelow⟩

/-! ### One entry of a group in memory -/

/-- The sub-identifiers of a group in memory. -/
theorem subIds_laid {es : List Laid} (hold : g.Hold (es.map Laid.entry)) :
    subIds (es.map Laid.sub) = g.ids := by
  rw [hold.ids, subIds, map_map, map_map]
  rfl

/-- What the binary search in a group finds. -/
theorem laid_lookup {es : List Laid} (hold : g.Hold (es.map Laid.entry))
    (hs : (subIds (es.map Laid.sub)).Pairwise (· < ·)) (x : UInt32) :
    (∃ l e r, es = l ++ e :: r ∧ e.id = x ∧ (∀ s ∈ l.map Laid.sub, s.1 < x) ∧
      (∀ s ∈ r.map Laid.sub, x < s.1) ∧ oidBinarySearch g.ids x = l.length ∧
      g.subPtr[l.length]? = some (some e.addr)) ∨
    (∃ l r, es = l ++ r ∧ (∀ s ∈ l.map Laid.sub, s.1 < x) ∧ (∀ s ∈ r.map Laid.sub, x < s.1) ∧
      oidBinarySearch g.ids x = -(l.length : Int) - 1) := by
  rw [← subIds_laid hold]
  rcases subs_lookup hs x with ⟨l, n, r, heq, hl, hr, hi⟩ | ⟨l, r, heq, hl, hr, hi⟩
  · obtain ⟨l, r', rfl, rfl, hr'⟩ := map_eq_append_iff.mp heq
    obtain ⟨e, r, rfl, he, rfl⟩ := map_eq_cons_iff.mp hr'
    refine .inl ⟨l, e, r, rfl, congrArg Prod.fst he, hl, hr, by simpa using hi, ?_⟩
    have hget := hold.subPtr_get (i := l.length) (by simp)
    rw [hget]
    simp [Laid.entry]
  · obtain ⟨l, r, rfl, rfl, rfl⟩ := map_eq_append_iff.mp heq
    exact .inr ⟨l, r, rfl, hl, hr, by simpa using hi⟩

/-! ### The search for a node -/

/-- The child indices lead from the group at an address to the node of `pair`. -/
inductive LeadsTo (m : Heap) : ℕ → List ℕ → NodePair → Prop
  | last {a b i : ℕ} {g : ChildArrays ℕ} :
      m a = some (.group g) → g.ptrs[i]? = some (some b) → LeadsTo m a [i] ⟨a, some b, i⟩
  | down {a b i : ℕ} {is : List ℕ} {g : ChildArrays ℕ} {pair : NodePair} :
      m a = some (.group g) → g.ptrs[i]? = some (some b) → LeadsTo m b is pair →
      LeadsTo m a (i :: is) pair

/-- **The search in memory** never reads a node that is not there, and finds what the search in
the tree finds. -/
theorem Lays.nodeSearch {d : ℕ} (h : Lays m a node foot) (hwf : node.Wf d) (oid : Oid)
    (parent idx : ℕ) :
    ∃ r pair, heapNodeSearch m oid parent (some a) idx = some (r, pair) ∧
      ((mibTreeNodeSearch oid node = none ∧ r = none) ∨
        (mibTreeNodeSearch oid node = some [] ∧ r = some a ∧ pair = ⟨parent, some a, idx⟩) ∨
        ∃ i is, mibTreeNodeSearch oid node = some (i :: is) ∧ r = pair.child ∧
          LeadsTo m a (i :: is) pair) := by
  induction oid generalizing a d node foot parent idx with
  | nil =>
    exact ⟨_, _, rfl, .inr (.inl ⟨by simp [mibTreeNodeSearch], rfl, rfl⟩)⟩
  | cons x rest ih =>
    cases h with
    | @inst _ callback ha =>
      refine ⟨if rest.length = 0 then some a else none, ⟨parent, some a, idx⟩,
        by simp only [heapNodeSearch, ha], ?_⟩
      by_cases hrest : rest.length = 0
      · exact .inr (.inl ⟨by simp [mibTreeNodeSearch, hrest], by simp [hrest], rfl⟩)
      · exact .inl ⟨by simp [mibTreeNodeSearch, hrest], by simp [hrest]⟩
    | @group _ g es ha hold _ hes =>
      obtain ⟨-, hs, hsubs⟩ := wf_group_iff.mp hwf
      rcases laid_lookup hold hs x with
        ⟨l, e, r, rfl, rfl, hl, hr, hi, hptr⟩ | ⟨l, r, rfl, -, -, hi⟩
      -- the sub-identifier is there: both searches go on in the child
      · have hsearch : heapNodeSearch m (e.id :: rest) parent (some a) idx =
            heapNodeSearch m rest a (some e.addr) l.length := by
          simp only [heapNodeSearch, ha, hi, Int.natCast_nonneg, if_true, Int.toNat_natCast,
            hptr]
        have hget : g.ptrs[l.length]? = some (some e.addr) := by
          rw [hold.ptrs]
          simp [Laid.entry]
        have htree : mibTreeNodeSearch (e.id :: rest) (.group ((l ++ e :: r).map Laid.sub)) =
            (mibTreeNodeSearch rest e.node).map (l.length :: ·) := by
          rw [map_append, map_cons]
          simpa [Laid.sub] using nodeSearch_present (n := e.node) hl hr rest
        rw [hsearch, htree]
        obtain ⟨res, pair, heq, hcases⟩ := ih (hes e (by simp))
          (hsubs e.sub (mem_map_of_mem (by simp))) a l.length
        refine ⟨res, pair, heq, ?_⟩
        rcases hcases with ⟨hnone, rfl⟩ | ⟨hroot, rfl, rfl⟩ | ⟨i, is, hfound, rfl, hleads⟩
        · exact .inl ⟨by rw [hnone]; rfl, rfl⟩
        · exact .inr (.inr ⟨l.length, [], by rw [hroot]; rfl, rfl, .last ha hget⟩)
        · exact .inr (.inr ⟨l.length, i :: is, by rw [hfound]; rfl, rfl,
            .down ha hget hleads⟩)
      · have hneg : ¬ (0 : Int) ≤ -(l.length : Int) - 1 := by omega
        refine ⟨none, ⟨parent, some a, idx⟩,
          by simp only [heapNodeSearch, ha, hi, hneg, if_false], .inl ⟨?_, rfl⟩⟩
        rw [map_append]
        refine nodeSearch_missing ?_ rest
        rw [← map_append, subIds_laid hold, hi, length_map]

/-! ### Insertion -/

@[simp] theorem Heap.write_same (m : Heap) (a : ℕ) (c : Cell) : m.write a c a = some c :=
  Function.update_self ..

theorem Heap.write_of_ne (m : Heap) (c : Cell) (h : b ≠ a) : m.write a c b = m b :=
  Function.update_of_ne h ..

/-- An insertion in memory that succeeds is the insertion into the tree. The new nodes are at
addresses that were free, and nothing outside the tree changes. -/
structure Inserted (callback : Int) (oid : Oid) (a : ℕ) (node node' : MibNode)
    (foot foot' : List ℕ) (m m' : Heap) : Prop where
  tree : mibTreeInstanceInsert callback oid node = some node'
  lays : Lays m' a node' foot'
  nodup : foot'.Nodup
  grown : ∀ b ∈ foot', b ∈ foot ∨ m b = none
  frame : ∀ b, b ∉ foot → m b ≠ none → m' b = m b

section Group

variable {m m' : Heap} {a : ℕ} {g g' : ChildArrays ℕ} {l r : List Laid}

/-- The footprint of a group up to the order. -/
theorem foot_perm (l r : List Laid) (e : Laid) (a : ℕ) :
    ((l ++ e :: r).flatMap Laid.foot ++ [a]).Perm
      (e.foot ++ ((l ++ r).flatMap Laid.foot ++ [a])) := by
  simp only [flatMap_append, flatMap_cons, ← append_assoc]
  exact (perm_append_comm.append_right _).append_right _

theorem Lays.replace (e' : Laid) (ha : m' a = some (.group g'))
    (hold : g'.Hold ((l ++ e' :: r).map Laid.entry))
    (hes : ∀ f ∈ l ++ r, Lays m f.addr f.node f.foot)
    (hnd : ((l ++ r).flatMap Laid.foot ++ [a]).Nodup)
    (he : Lays m' e'.addr e'.node e'.foot) (hnodup : e'.foot.Nodup)
    (hapart : ∀ b ∈ e'.foot, b ∉ (l ++ r).flatMap Laid.foot ++ [a])
    (hsame : ∀ b ∈ (l ++ r).flatMap Laid.foot, m' b = m b) :
    Lays m' a (.group ((l ++ e' :: r).map Laid.sub)) ((l ++ e' :: r).flatMap Laid.foot ++ [a]) ∧
      ((l ++ e' :: r).flatMap Laid.foot ++ [a]).Nodup := by
  refine ⟨.group ha hold (by simp) fun f hf => ?_, ?_⟩
  · have hf' : f = e' ∨ f ∈ l ++ r := by
      simp only [mem_append, mem_cons] at hf ⊢
      tauto
    rcases hf' with rfl | hf'
    · exact he
    · exact (hes f hf').frame fun b hb => hsame b (mem_flatMap.mpr ⟨f, hf', hb⟩)
  · refine (foot_perm l r e' a).nodup_iff.mpr (nodup_append.mpr ⟨hnodup, hnd, ?_⟩)
    rintro b hb c hc rfl
    exact hapart b hb hc

end Group

theorem heapAllocate_spec {x : UInt32} {index : ℕ} {fresh : List ℕ}
    {goOn : ℕ → List ℕ → Heap → Option (Bool × Heap)} {ok : Bool} (ha : m a ≠ none)
    (hgoOn : ∀ b fresh m ok m', rest.length ≠ 0 → Lays m b (.group []) [b] →
      goOn b fresh m = some (ok, m') → ok = true ∧
        ∃ foot, Inserted callback rest b (.group []) (chain callback rest) [b] foot m m')
    (h : heapAllocate callback x rest a fresh m goOn g index = some (ok, m')) :
    ok = true ∧ ∃ b foot, m' a = some (.group (g.write index x b)) ∧
      Lays m' b (chain callback rest) foot ∧ foot.Nodup ∧ (∀ c ∈ foot, m c = none) ∧
      ∀ c, c ≠ a → m c ≠ none → m' c = m c := by
  rcases fresh with _ | ⟨b, fresh⟩
  · cases h
  · simp only [heapAllocate] at h
    split at h
    · cases h
    · next hb =>
        have hb' : m b = none := by simpa using hb
        -- the new node lies at an address that was free
        have hne : ∀ c, m c ≠ none → c ≠ b := by
          rintro c hc rfl
          exact hc hb'
        have hab : a ≠ b := hne a ha
        split at h
        · next hrest =>
            obtain ⟨rfl, rfl⟩ := Prod.mk.inj (Option.some.inj h)
            obtain rfl := length_eq_zero_iff.mp hrest
            refine ⟨rfl, b, [b], by simp [Heap.write_of_ne, hab], .inst (by simp), by simp,
              by simpa using hb', fun c hca hc => ?_⟩
            rw [Heap.write_of_ne _ _ (hne c hc), Heap.write_of_ne _ _ hca]
        · next hrest =>
            obtain ⟨rfl, foot, hins⟩ := hgoOn _ _ _ _ _ hrest (.new (Heap.write_same ..)) h
            have hframe : ∀ c, c ≠ b → _ := fun c hc => hins.frame c (by simpa using hc)
            refine ⟨rfl, b, foot, ?_, hins.lays, hins.nodup, fun c hc => ?_, fun c hca hc => ?_⟩
            · rw [hframe a hab (by simp [Heap.write_of_ne, hab])]
              simp [Heap.write_of_ne, hab]
            · rcases hins.grown c hc with hc | hc
              · obtain rfl := mem_singleton.mp hc
                exact hb'
              · have hcb : c ≠ b := by
                  rintro rfl
                  simp at hc
                have hca : c ≠ a := by
                  rintro rfl
                  simp [Heap.write_of_ne, hcb] at hc
                rwa [Heap.write_of_ne _ _ hcb, Heap.write_of_ne _ _ hca] at hc
            · have hsame : ((m.write a (.group (g.write index x b))).write b (.group .new)) c =
                  m c := by
                rw [Heap.write_of_ne _ _ (hne c hc), Heap.write_of_ne _ _ hca]
              rw [hframe c (hne c hc) (hsame ▸ hc), hsame]

theorem Inserted.missing {x : UInt32} {g' : ChildArrays ℕ} {l r : List Laid}
    (h : Lays m a (.group ((l ++ r).map Laid.sub)) ((l ++ r).flatMap Laid.foot ++ [a]))
    (hold : g.Hold ((l ++ r).map Laid.entry)) (hes : ∀ f ∈ l ++ r, Lays m f.addr f.node f.foot)
    (hnd : ((l ++ r).flatMap Laid.foot ++ [a]).Nodup) (hl : ∀ s ∈ l.map Laid.sub, s.1 < x)
    (hr : ∀ s ∈ r.map Laid.sub, x < s.1) (hi : oidBinarySearch g.ids x = -(l.length : Int) - 1)
    (ha : m' a = some (.group g'))
    (hold' : g'.Hold (l.map Laid.entry ++ (x, b) :: r.map Laid.entry))
    (hchain : Lays m' b (chain callback rest) foot) (hnodup : foot.Nodup)
    (hfree : ∀ c ∈ foot, m c = none) (hframe : ∀ c, c ≠ a → m c ≠ none → m' c = m c) :
    ∃ node' foot', Inserted callback (x :: rest) a (.group ((l ++ r).map Laid.sub)) node'
      ((l ++ r).flatMap Laid.foot ++ [a]) foot' m m' := by
  set e : Laid := ⟨x, b, chain callback rest, foot⟩ with he
  have hother : ∀ c ∈ (l ++ r).flatMap Laid.foot, m' c = m c := by
    intro c hc
    refine hframe c ?_ (h.allocated (mem_append_left _ hc))
    rintro rfl
    exact (nodup_append.mp hnd).2.2 c hc c (by simp) rfl
  obtain ⟨hlays, hnodup'⟩ := Lays.replace e ha (by simpa [Laid.entry, he] using hold') hes hnd
    hchain hnodup (fun c hc hmem => h.allocated hmem (hfree c hc)) hother
  refine ⟨_, _, ?_, hlays, hnodup', fun c hc => ?_, fun c hc => hframe c ?_⟩
  · rw [map_append, map_append, map_cons]
    refine instanceInsert_missing hl hr ?_ rest
    rw [← map_append, subIds_laid hold, hi, length_map]
  · rcases mem_append.mp ((foot_perm l r e a).mem_iff.mp hc) with hc | hc
    · exact .inr (hfree c hc)
    · exact .inl hc
  · rintro rfl
    simp at hc

theorem Inserted.below {l r : List Laid} {e : Laid} {node' : MibNode} {foot' : List ℕ}
    (ha : m a = some (.group g)) (hold : g.Hold ((l ++ e :: r).map Laid.entry))
    (hes : ∀ f ∈ l ++ e :: r, Lays m f.addr f.node f.foot)
    (hnd : ((l ++ e :: r).flatMap Laid.foot ++ [a]).Nodup) (hl : ∀ s ∈ l.map Laid.sub, s.1 < e.id)
    (hr : ∀ s ∈ r.map Laid.sub, e.id < s.1)
    (h : Inserted callback rest e.addr e.node node' e.foot foot' m m') :
    ∃ node'' foot'', Inserted callback (e.id :: rest) a (.group ((l ++ e :: r).map Laid.sub)) node''
      ((l ++ e :: r).flatMap Laid.foot ++ [a]) foot'' m m' := by
  set e' : Laid := ⟨e.id, e.addr, node', foot'⟩ with he'
  have hes' : ∀ f ∈ l ++ r, Lays m f.addr f.node f.foot := by
    intro f hf
    refine hes f ?_
    simp only [mem_append, mem_cons] at hf ⊢
    tauto
  obtain ⟨-, hrest, hdisj⟩ := nodup_append.mp ((foot_perm l r e a).nodup_iff.mp hnd)
  -- the other nodes of the group are allocated and not below the entry
  have hothers : ∀ b ∈ (l ++ r).flatMap Laid.foot ++ [a], b ∉ e.foot ∧ m b ≠ none := by
    intro b hb
    refine ⟨fun hbe => hdisj b hbe b hb rfl, ?_⟩
    rcases mem_append.mp hb with hb | hb
    · obtain ⟨f, hf, hb⟩ := mem_flatMap.mp hb
      exact (hes' f hf).allocated hb
    · obtain rfl := mem_singleton.mp hb
      simp [ha]
  have hsame : ∀ b ∈ (l ++ r).flatMap Laid.foot ++ [a], m' b = m b := fun b hb =>
    h.frame b (hothers b hb).1 (hothers b hb).2
  obtain ⟨hlays, hnodup⟩ := Lays.replace e' ((hsame a (by simp)).trans ha)
    (by simpa [Laid.entry, he'] using hold) hes' hrest h.lays h.nodup
    (fun b hb hmem => (h.grown b hb).elim (hothers b hmem).1 (hothers b hmem).2)
    (fun b hb => hsame b (mem_append_left _ hb))
  refine ⟨_, _, ?_, hlays, hnodup, fun b hb => ?_, fun b hb => h.frame b fun hbe => hb ?_⟩
  · have htree : mibTreeInstanceInsert callback (e.id :: rest) _ = _ :=
      instanceInsert_present (n := e.node) hl hr rest
    rw [h.tree] at htree
    simpa [Laid.sub] using htree
  · rcases mem_append.mp ((foot_perm l r e' a).mem_iff.mp hb) with hb | hb
    · refine (h.grown b hb).imp (fun hb => (foot_perm l r e a).mem_iff.mpr ?_) id
      exact mem_append_left _ hb
    · exact .inl ((foot_perm l r e a).mem_iff.mpr (mem_append_right _ hb))
  · exact (foot_perm l r e a).mem_iff.mpr (mem_append_left _ hbe)

/-- **Insertion in memory** is insertion into the tree; when it fails nothing changes. -/
theorem Lays.instanceInsert {oid : Oid} {d : ℕ} {fresh : List ℕ} {ok : Bool}
    (h : Lays m a node foot) (hnd : foot.Nodup) (hwf : node.Wf d) (hlen : oid.length ≤ d)
    (hins : heapInstanceInsert callback oid a fresh m = some (ok, m')) :
    (ok = false ∧ m' = m ∧ mibTreeInstanceInsert callback oid node = none) ∨
      (ok = true ∧ ∃ node' foot', Inserted callback oid a node node' foot foot' m m') := by
  induction oid generalizing a d node foot fresh m m' ok with
  | nil =>
    obtain ⟨rfl, rfl⟩ := Prod.mk.inj (Option.some.inj hins)
    exact .inl ⟨rfl, rfl, by simp [mibTreeInstanceInsert]⟩
  | cons x rest ih =>
    cases h with
    | @inst _ _ ha =>
      simp only [heapInstanceInsert, ha] at hins
      obtain ⟨rfl, rfl⟩ := Prod.mk.inj (Option.some.inj hins)
      exact .inl ⟨rfl, rfl, by simp [mibTreeInstanceInsert]⟩
    | @group _ g es ha hold hnull hes =>
      obtain ⟨hd, hs, hsubs⟩ := wf_group_iff.mp hwf
      have hlen' : rest.length ≤ d - 1 := by simp at hlen; omega
      -- from a new group on, the insertion makes a chain
      have hnew : ∀ b fresh m ok m', rest.length ≠ 0 → Lays m b (.group []) [b] →
          heapInstanceInsert callback rest b fresh m = some (ok, m') → ok = true ∧
            ∃ foot, Inserted callback rest b (.group []) (chain callback rest) [b] foot m m' := by
        intro b fresh m ok m' hrest hlays hgo
        obtain ⟨y, rest, rfl⟩ := exists_cons_of_length_pos (Nat.pos_of_ne_zero hrest)
        have hwf₀ : MibNode.Wf (d - 1) (.group []) :=
          wf_nil (by simp at hlen'; omega)
        have hraw := instanceInsert_raw callback y rest
        rcases ih hlays (by simp) hwf₀ hlen' hgo with
          ⟨-, -, hnone⟩ | ⟨rfl, node', foot', hin⟩
        · rw [hraw] at hnone
          cases hnone
        · obtain rfl := Option.some.inj (hraw.symm.trans hin.tree)
          exact ⟨rfl, foot', hin⟩
      simp only [heapInstanceInsert, ha] at hins
      by_cases hraw : es = []
      · subst hraw
        rw [if_pos (hold.isRaw_iff.mpr rfl)] at hins
        obtain ⟨rfl, b, foot, ha', hchain, hnodup, hfree, hframe⟩ :=
          heapAllocate_spec (by simp [ha]) hnew hins
        refine .inr ⟨rfl, Inserted.missing (l := []) (r := []) (.group ha hold hnull hes) hold
          hes hnd (by simp) (by simp) ?_ ha' (hold.write_raw x b) hchain hnodup hfree hframe⟩
        rw [hold.ids]
        rfl
      · have hraw' : ¬ g.isRaw = true := fun h => hraw (by simpa using hold.isRaw_iff.mp h)
        rw [if_neg hraw'] at hins
        rcases laid_lookup hold hs x with
          ⟨l, e, r, rfl, rfl, hl, hr, hi, hptr⟩ | ⟨l, r, rfl, hl, hr, hi⟩
        · simp only [hi, Int.natCast_nonneg, if_true, Int.toNat_natCast, hptr] at hins
          have hnd' : e.foot.Nodup :=
            (nodup_append.mp ((foot_perm l r e a).nodup_iff.mp hnd)).1
          rcases ih (hes e (by simp)) hnd' (hsubs e.sub (mem_map_of_mem (by simp))) hlen'
            hins with ⟨rfl, rfl, hnone⟩ | ⟨rfl, node', foot', hin⟩
          · refine .inl ⟨rfl, rfl, ?_⟩
            have htree : mibTreeInstanceInsert callback (e.id :: rest) _ = _ :=
              instanceInsert_present (n := e.node) hl hr rest
            rw [hnone] at htree
            simpa [Laid.sub] using htree
          · exact .inr ⟨rfl, hin.below ha hold hes hnd hl hr⟩
        · have hneg : ¬ (0 : Int) ≤ -(l.length : Int) - 1 := by omega
          have hindex : (-(-(l.length : Int) - 1) - 1).toNat = l.length := by omega
          simp only [hi, hneg, if_false, hindex] at hins
          obtain ⟨rfl, b, foot, ha', hchain, hnodup, hfree, hframe⟩ :=
            heapAllocate_spec (by simp [ha]) hnew hins
          have hle : l.length ≤ ((l ++ r).map Laid.entry).length := by simp
          have hold' := hold.write_expand hle x b
          refine .inr ⟨rfl, Inserted.missing (.group ha hold hnull hes) hold hes hnd hl hr hi
            ha' (by simpa using hold') hchain hnodup hfree hframe⟩

end SmithSnmp
