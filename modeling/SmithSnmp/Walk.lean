import Mathlib.Data.Finset.Sort
import SmithSnmp.MsgViews

/-!
# Walking the MIB

A manager walks the MIB by asking `mib_getnext` for the OID it got last, until it is told
`END_OF_MIB_VIEW`. With sub-identifiers below `2 ^ 31` the views of a principal are
visited in ascending order, so a walk lists the instances of all views in ascending order,
each once.

There is one exception. For a principal without read views `mib_getnext` returns before
any search, and the response carries the tag that the request came with: the walk does not
end, unless the manager itself sent `END_OF_MIB_VIEW`.

## Main results

* `mibGetnext_least`: one step of the walk finds the least instance in the views that is
  greater than the OID asked for.
* `mibGetnext_walk_iff`: the whole walk, and when it comes to its end.
-/

namespace SmithSnmp

open List Lib MibNode

variable {σ : Type}

variable {h : Handlers σ} {root : MibNode} {view orig start : Oid} {I : Int → Set Oid}
  {Ans : Int → Oid → LuaVal → UInt8 → Prop} {ag : Agent σ} {sdg : SnmpDatagram} {views : List Oid}

/-- The instances of a walk: those covered by one of the views and greater than the
start. -/
def walkSet (root : MibNode) (I : Int → Set Oid) (views : List Oid) (start : Oid) : Set Oid :=
  {o | o ∈ Instances root I ∧ (∃ v ∈ views, v <+: o) ∧ start < o}

/-- The walk from `o` in the world `w` yields the listed OIDs, one GETNEXT after the other,
and then `END_OF_MIB_VIEW` with the OID asked for. Every request carries a value of the
given type; the rest of `ret_oid` is arbitrary. -/
def Walks (ag : Agent σ) (sdg : SnmpDatagram) (type : UInt8) :
    List Oid → Oid → World Event σ → Prop
  | [], o, w => ∀ ret, ret.request = .getnext → ret.var.tag = type →
      ∃ r w', mibGetnext ag sdg o ret w = (some r, w') ∧ r.oid = o ∧
        r.var.tag = asn1TagEndOfMibView
  | m :: os, o, w => ∀ ret, ret.request = .getnext → ret.var.tag = type →
      ∃ r w', mibGetnext ag sdg o ret w = (some r, w') ∧ r.oid = m ∧ r.errStat = 0 ∧
        asn1TagValid r.var.tag = true ∧ Walks ag sdg type os m w'

/-! ### One view -/

/-- No registered instance node lies strictly above the OID. -/
def NotBelowInstance (root : MibNode) (view : Oid) : Prop :=
  ∀ p callback, (p, callback) ∈ registered root → p <+: view → p = view

theorem viewProbe_of_notBelow {d : ℕ} (hwf : root.Wf d) (hv : NotBelowInstance root view)
    (ret : OidSearchRes) (w : World Event σ) : ∃ r, viewProbe h root view ret w = (some r, w) := by
  obtain ⟨p, hview, hleads, -⟩ := mibTreeWalk_leads hwf view
  have hcover : ¬ oidCover view view ≤ 0 :=
    not_le.mpr ((oidCover_pos_iff view view).mpr (prefix_refl view))
  rcases hwalk : mibTreeWalk view root with ⟨⟨subs⟩ | callback, rest⟩
  · simp [viewProbe, mibTreeSearch, hcover, hwalk]
  · rw [hwalk] at hview hleads
    have hreg : (p, callback) ∈ registered root := by
      simpa using (hleads.registered_iff hwf [] callback).mpr (by simp [registered])
    have hp : p = view := hv p callback hreg (hview ▸ prefix_append p rest)
    obtain rfl : rest = [] := by
      rw [hp] at hview
      exact self_eq_append_right.mp hview
    simp [viewProbe, mibTreeSearch, hcover, hwalk]

theorem not_mem_instances_of_notBelow [Nonempty σ] (henum : Enumerates h root I Ans)
    (hv : NotBelowInstance root view) : view ∉ Instances root I := by
  rintro ⟨p, callback, x, hreg, hx, rfl⟩
  have hp := hv p callback hreg (prefix_append p x)
  obtain rfl : x = [] := self_eq_append_right.mp hp
  exact henum.suffix p callback hreg hx

/-- Below `2 ^ 31` a search looks at the instances of its view behind the OID, except for the view
itself. -/
theorem nextSet_small (hv : Oid.Small view) (ho : Oid.Small orig) :
    nextSet root I view orig =
      {o | o ∈ Instances root I ∧ view <+: o ∧ orig < o ∧ o ≠ view} := by
  ext o
  constructor
  · rintro ⟨hin, hcov, hent, hlt⟩
    refine ⟨hin, hcov, ?_⟩
    unfold nextBase at hlt
    split at hlt
    · next hvo => exact ⟨hlt, fun he => not_lt.mpr (le_of_extends hvo) (he ▸ hlt)⟩
    · next hnc =>
        have hov : orig < view := (oidCmp_neg_iff_lt ho hv).mp (hent.resolve_left hnc)
        exact ⟨hov.trans hlt, hlt.ne'⟩
  · rintro ⟨hin, hcov, hlt, hne⟩
    by_cases hvo : view <+: orig
    · exact ⟨hin, hcov, .inl hvo, by rwa [nextBase, if_pos hvo]⟩
    · have hov : orig < view := by
        by_contra hge
        have hlt' : view < orig :=
          lt_of_le_of_ne (not_lt.mp hge) fun he => hvo (he ▸ prefix_refl view)
        obtain ⟨z, rfl⟩ := hcov
        have := append_lt_append_of_lt hlt' hvo z []
        rw [append_nil] at this
        exact absurd hlt (not_lt.mpr this.le)
      refine ⟨hin, hcov, .inr ((oidCmp_neg_iff_lt ho hv).mpr hov), ?_⟩
      rw [nextBase, if_neg hvo]
      exact lt_of_prefix_of_ne hcov hne.symm

/-- A view that is no instance itself is searched as a whole. -/
theorem nextSet_of_small (hv : Oid.Small view) (ho : Oid.Small orig)
    (hnot : view ∉ Instances root I) :
    nextSet root I view orig = {o | o ∈ Instances root I ∧ view <+: o ∧ orig < o} := by
  rw [nextSet_small hv ho]
  ext o
  constructor
  · rintro ⟨hin, hcov, hlt, -⟩
    exact ⟨hin, hcov, hlt⟩
  · rintro ⟨hin, hcov, hlt⟩
    exact ⟨hin, hcov, hlt, fun he => hnot (he ▸ hin)⟩

/-! ### All views -/

/-- The least instance of the first view that has one is the least of all views, as the
views ascend without covering each other. -/
theorem isLeast_walkSet {m v : Oid} {l rest : List Oid} (hanti : Antichain (l ++ v :: rest))
    (hsort : (l ++ v :: rest).Pairwise (· < ·))
    (hl : ∀ u ∈ l, {o | o ∈ Instances root I ∧ u <+: o ∧ start < o} = ∅)
    (hm : IsLeast {o | o ∈ Instances root I ∧ v <+: o ∧ start < o} m) :
    IsLeast (walkSet root I (l ++ v :: rest) start) m := by
  refine ⟨⟨hm.1.1, ⟨v, by simp, hm.1.2.1⟩, hm.1.2.2⟩, ?_⟩
  rintro o ⟨hin, ⟨u, hu, hcov⟩, hlt⟩
  rcases mem_append.mp hu with hu | hu
  · have : o ∈ {o | o ∈ Instances root I ∧ u <+: o ∧ start < o} := ⟨hin, hcov, hlt⟩
    rw [hl u hu] at this
    exact absurd this (Set.notMem_empty o)
  · rcases mem_cons.mp hu with rfl | hu
    · exact hm.2 ⟨hin, hcov, hlt⟩
    · have hvu : v < u := by
        have := (pairwise_append.mp hsort).2.1
        exact (pairwise_cons.mp this).1 u hu
      obtain ⟨a, ha⟩ := hm.1.2.1
      obtain ⟨b, rfl⟩ := hcov
      rw [← ha]
      exact (append_lt_append_of_lt hvu (hanti.others.2 u hu).2 a b).le

/-- What the walk of a principal assumes: a reachable tree, views and instances with
sub-identifiers below `2 ^ 31`, no view strictly below an instance node, and handlers that
enumerate their instances. -/
structure Walkable (ag : Agent σ) (sdg : SnmpDatagram) (I : Int → Set Oid)
    (views : List Oid) : Prop where
  /-- the tree results from registrations -/
  tree : ag.root.Reachable
  /-- so do the principals -/
  reachable : ag.views.Reachable Oid.Small
  /-- the user of the datagram is one of them -/
  known : KnownUser ag sdg
  /-- the principal and its read views -/
  principal : principalViews ag.views sdg .read = some views
  /-- no view lies strictly below an instance node -/
  notBelow : ∀ v ∈ views, NotBelowInstance ag.root v
  /-- instances have small sub-identifiers -/
  small : ∀ o ∈ Instances ag.root I, Oid.Small o
  /-- the handlers enumerate the instances -/
  enumerates : Enumerates ag.handlers ag.root I fun _ _ _ _ => True

/-- **Step lemma.** `mib_getnext` of a principal with read views returns the least instance
in the views that is greater than the OID, or `END_OF_MIB_VIEW`. -/
theorem mibGetnext_least (hw : Walkable ag sdg I views) (hne : views ≠ []) (ho : Oid.Small orig)
    (ret : OidSearchRes) (hret : ret.request = .getnext) (w : World Event σ) :
    ∃ r w', mibGetnext ag sdg orig ret w = (some r, w') ∧
      ((IsLeast (walkSet ag.root I views orig) r.oid ∧ r.errStat = 0 ∧
          asn1TagValid r.var.tag = true) ∨
        (walkSet ag.root I views orig = ∅ ∧ r.oid = orig ∧
          r.var.tag = asn1TagEndOfMibView)) := by
  have : Nonempty σ := ⟨w.state⟩
  have hwf := hw.tree.wf
  have hanti : Antichain views :=
    principalViews_of_lists hw.reachable.antichain hw.known hw.principal
  obtain ⟨hsmall, hsort⟩ : SmallSorted views :=
    principalViews_of_lists hw.reachable.sorted hw.known hw.principal
  have hset : ∀ v ∈ views, nextSet ag.root I v orig =
      {o | o ∈ Instances ag.root I ∧ v <+: o ∧ orig < o} := fun v hv =>
    nextSet_of_small (hsmall v hv) ho
      (not_mem_instances_of_notBelow hw.enumerates (hw.notBelow v hv))
  have hprobe : ∀ v ∈ views, ∀ ret w, ∃ r w',
      viewProbe ag.handlers ag.root v ret w = (some r, w') := by
    intro v hv ret w
    obtain ⟨r, hr⟩ := viewProbe_of_notBelow hwf (hw.notBelow v hv) ret w
    exact ⟨r, w, hr⟩
  rw [mibGetnext_eq hanti.nodup hw.principal]
  obtain ⟨r, w', hrun, -, herr, hout⟩ := getnextViews_spec hwf hw.enumerates orig hne hprobe
    (authenStep sdg ret) (by simpa using hret) w
  refine ⟨r, w', hrun, ?_⟩
  rcases hout with ⟨l, v, rest, val, tag, rfl, hl, hleast, -, hcop, hholds⟩ | ⟨hall, hoid, htag⟩
  · refine .inl ⟨isLeast_walkSet hanti hsort (fun u hu => ?_) ?_, herr, ?_⟩
    · exact (hset u (by simp [hu])).symm.trans (hl u hu)
    · exact hset v (by simp) ▸ hleast
    · rw [hholds.1]
      exact asn1TagValid_of_copied hcop
  · refine .inr ⟨?_, hoid, htag⟩
    ext o
    constructor
    · rintro ⟨hin, ⟨v, hv, hcov⟩, hlt⟩
      have hempty : nextSet ag.root I v orig = ∅ := hall v hv
      rw [hset v hv] at hempty
      exact hempty.subset ⟨hin, hcov, hlt⟩
    · exact False.elim

/-- Behind the least instance come the others. -/
theorem mem_walkSet_of_cons {os : List Oid} {m : Oid} (hsort : (m :: os).Pairwise (· < ·))
    (hmem : ∀ o, o ∈ m :: os ↔ o ∈ walkSet root I views start) :
    ∀ o, o ∈ os ↔ o ∈ walkSet root I views m := by
  obtain ⟨hhead, -⟩ := pairwise_cons.mp hsort
  intro o
  constructor
  · intro h
    obtain ⟨hin, hcov, -⟩ := (hmem o).mp (mem_cons_of_mem m h)
    exact ⟨hin, hcov, hhead o h⟩
  · rintro ⟨hin, hcov, hlt⟩
    have hstart : start < m := ((hmem m).mp (by simp)).2.2
    rcases mem_cons.mp ((hmem o).mpr ⟨hin, hcov, hstart.trans hlt⟩) with rfl | h
    · exact absurd hlt (lt_irrefl o)
    · exact h

/-- **Run lemma.** The walk of a principal with read views yields the instances in
ascending order and ends. -/
theorem walks_of_sorted (hw : Walkable ag sdg I views) (hne : views ≠ []) (type : UInt8)
    {os : List Oid} (hstart : Oid.Small start) (hsort : os.Pairwise (· < ·))
    (hmem : ∀ o, o ∈ os ↔ o ∈ walkSet ag.root I views start) (w : World Event σ) :
    Walks ag sdg type os start w := by
  induction os generalizing start w with
  | nil =>
    intro ret hret _
    obtain ⟨r, w', hrun, ⟨hleast, -⟩ | ⟨-, hend⟩⟩ := mibGetnext_least hw hne hstart ret hret w
    · exact absurd ((hmem _).mpr hleast.1) not_mem_nil
    · exact ⟨r, w', hrun, hend⟩
  | cons m os ih =>
    intro ret hret _
    have hm := (hmem m).mp (by simp)
    obtain ⟨hhead, htail⟩ := pairwise_cons.mp hsort
    obtain ⟨r, w', hrun, ⟨hleast, herr, hval⟩ | ⟨hempty, -⟩⟩ :=
      mibGetnext_least hw hne hstart ret hret w
    · have hrm : r.oid = m := by
        refine le_antisymm (hleast.2 hm) ?_
        rcases mem_cons.mp ((hmem r.oid).mpr hleast.1) with h | h
        · exact h.ge
        · exact (hhead _ h).le
      exact ⟨r, w', hrun, hrm, herr, hval, ih (hw.small m hm.1) htail
        (mem_walkSet_of_cons hsort hmem) w'⟩
    · rw [hempty] at hm
      exact absurd hm (Set.notMem_empty m)

/-- The instances of a walk can be listed in ascending order. -/
theorem exists_sorted_walkSet (henum : Enumerates h root I Ans) (views : List Oid) (start : Oid) :
    ∃ os : List Oid, os.Pairwise (· < ·) ∧ ∀ o, o ∈ os ↔ o ∈ walkSet root I views start := by
  have hfin : (walkSet root I views start).Finite :=
    (finite_length_le UInt32 asn1OidMaxLen).subset fun o ho => henum.fits o ho.1
  exact ⟨hfin.toFinset.sort, hfin.toFinset.sortedLT_sort.pairwise, fun o => by simp⟩

/-- Without read views `mib_getnext` gives the request back. -/
theorem mibGetnext_no_views (hp : principalViews ag.views sdg .read = some []) (o : Oid)
    (ret : OidSearchRes) (w : World Event σ) :
    mibGetnext ag sdg o ret w = (some { authenStep sdg ret with oid := o }, w) := by
  rw [mibGetnext_eq nodup_nil hp]
  rfl

/-- **The walk.** For every start OID, the walk lists exactly the instances covered by some
view and greater than the start, in strictly ascending order, and ends with
`END_OF_MIB_VIEW` — if and only if the principal has a read view, or the requests
themselves carry that tag. -/
theorem mibGetnext_walk_iff {ag : Agent σ} {sdg : SnmpDatagram} {I : Int → Set Oid}
    {views : List Oid} (hw : Walkable ag sdg I views) (type : UInt8) {start : Oid}
    (hstart : Oid.Small start) (w : World Event σ) :
    (∃ os : List Oid, os.Pairwise (· < ·) ∧
        (∀ o, o ∈ os ↔ o ∈ walkSet ag.root I views start) ∧ Walks ag sdg type os start w) ↔
      views ≠ [] ∨ type = asn1TagEndOfMibView := by
  obtain ⟨os, hsort, hmem⟩ := exists_sorted_walkSet hw.enumerates views start
  constructor
  · rintro ⟨os', -, hmem', hwalks⟩
    by_contra hcon
    obtain ⟨hviews, htype⟩ := not_or.mp hcon
    rw [not_not] at hviews
    subst hviews
    obtain rfl : os' = [] := by
      refine eq_nil_iff_forall_not_mem.mpr fun o ho => ?_
      obtain ⟨-, ⟨v, hv, -⟩, -⟩ := (hmem' o).mp ho
      exact absurd hv not_mem_nil
    obtain ⟨r, w', hrun, -, htag⟩ :=
      hwalks { request := .getnext, var := { tag := type } } rfl rfl
    rw [mibGetnext_no_views hw.principal] at hrun
    obtain ⟨hr, -⟩ := Prod.mk.inj hrun
    obtain rfl := Option.some.inj hr
    exact htype (by simpa using htag)
  · intro hcon
    refine ⟨os, hsort, hmem, ?_⟩
    by_cases hviews : views = []
    · have htype := hcon.resolve_left (not_not.mpr hviews)
      subst hviews
      obtain rfl : os = [] := by
        refine eq_nil_iff_forall_not_mem.mpr fun o ho => ?_
        obtain ⟨-, ⟨v, hv, -⟩, -⟩ := (hmem o).mp ho
        exact absurd hv not_mem_nil
      intro ret _ htag
      rw [mibGetnext_no_views hw.principal]
      exact ⟨_, w, rfl, rfl, by simpa [htag] using htype⟩
    · exact walks_of_sorted hw hviews type hstart hsort hmem w

/-! ### A scalar MIB -/

/-- Handlers of objects with one instance each, of the suffix `inst` and the value 7. -/
def singleHandlers (inst : Oid) : Handlers Unit where
  call _ request s _ st :=
    match request with
    | .getnext =>
      (if s < inst then .ret 0 inst (.num 7) asn1TagInt
        else .ret 0 [] .nil asn1TagNoSuchInst, st)
    | .get =>
      (if s = inst then .ret 0 inst (.num 7) asn1TagInt
        else .ret 0 [] .nil asn1TagNoSuchInst, st)
    | .set => (.ret 0 s .nil asn1TagInt, st)

/-- Handlers of scalar objects, whose instance has the suffix `0`. -/
def scalarHandlers : Handlers Unit := singleHandlers [0]

/-- An agent with a scalar object at `1.3` and the community `p` for the view `1`. -/
def scalarAgent : Agent Unit where
  handlers := scalarHandlers
  root := (mibNodeReg (.group []) [1, 3] 0).2
  views := mibCommunityReg {} [1] [0x70] .read

theorem singleHandlers_enumerates {inst : Oid} (hne : inst ≠ [])
    (hans : ∀ callback, Ans callback inst (.num 7) asn1TagInt)
    (hlen : ∀ p callback, (p, callback) ∈ registered root →
      p.length + inst.length ≤ asn1OidMaxLen) :
    Enumerates (singleHandlers inst) root (fun _ => {inst}) Ans where
  next := by
    rintro p callback hp s m w ⟨⟨rfl, hs⟩, -⟩
    exact ⟨.num 7, asn1TagInt, by simp [singleHandlers, hs], by decide, hans callback⟩
  first := by
    rintro p callback hp m w ⟨rfl, -⟩
    obtain ⟨a, l, rfl⟩ := exists_cons_of_ne_nil hne
    exact ⟨.num 7, asn1TagInt, by simp [singleHandlers], by decide, hans callback⟩
  last := by
    intro p callback hp s w hs
    have : ¬ s < inst := hs inst rfl
    simp [singleHandlers, this, Reply.IsMiss, asn1TagValid, asn1TagNoSuchInst,
      asn1TagNoSuchObj]
  fits := by
    rintro o ⟨p, callback, x, hp, rfl, rfl⟩
    rw [length_append]
    exact hlen p callback hp

theorem scalarHandlers_enumerates (hans : ∀ callback, Ans callback [0] (.num 7) asn1TagInt)
    (hlen : ∀ p callback, (p, callback) ∈ registered root → p.length < asn1OidMaxLen) :
    Enumerates scalarHandlers root (fun _ => {[0]}) Ans :=
  singleHandlers_enumerates (cons_ne_nil 0 []) hans hlen

theorem registered_scalarAgent : registered scalarAgent.root = [([1, 3], 0)] := by
  decide

/-- An agent with scalar objects at `1.3` and `2.5`, and the community `p` that reads the views `1`
and `2` and writes `2`. -/
def pairAgent : Agent Unit where
  handlers := scalarHandlers
  root := (mibNodeReg (mibNodeReg (.group []) [1, 3] 0).2 [2, 5] 1).2
  views :=
    let readers := mibCommunityReg (mibCommunityReg {} [1] [0x70] .read) [2] [0x70] .read
    mibCommunityReg readers [2] [0x70] .write

/-- The registered instance nodes of the agent with two scalars. -/
theorem registered_pairAgent : registered pairAgent.root = [([1, 3], 0), ([2, 5], 1)] := by
  decide

/-- A walk of the community `p` through both views. -/
theorem pairAgent_walkable :
    Walkable pairAgent { contextName := [0x70] } (fun _ => {[0]}) [[1], [2]] where
  tree := .reg [2, 5] 1 (.reg [1, 3] 0 .init)
  reachable := by
    have hsmall : ∀ v ∈ ([[1], [2]] : List Oid), Oid.Small v := by simp [Oid.Small]
    exact .communityReg [2] [0x70] .write (hsmall _ (by simp))
      (.communityReg [2] [0x70] .read (hsmall _ (by simp))
        (.communityReg [1] [0x70] .read (hsmall _ (by simp)) .init))
  known := by simp [KnownUser]
  principal := by decide
  notBelow := by
    intro v hv p callback hp
    have hall : ∀ v ∈ ([[1], [2]] : List Oid), ∀ e ∈ [(([1, 3] : Oid), (0 : Int)), ([2, 5], 1)],
        e.1 <+: v → e.1 = v := by decide
    rw [registered_pairAgent] at hp
    exact hall v hv (p, callback) hp
  small := by
    rintro o ⟨p, callback, x, hp, rfl, rfl⟩
    rw [registered_pairAgent] at hp
    obtain ⟨rfl, -⟩ | ⟨rfl, -⟩ : p = [1, 3] ∧ callback = 0 ∨ p = [2, 5] ∧ callback = 1 := by
      simpa using hp
    all_goals simp [Oid.Small]
  enumerates := by
    refine scalarHandlers_enumerates (fun _ => trivial) fun p callback hp => ?_
    have hall : ∀ e ∈ [(([1, 3] : Oid), (0 : Int)), ([2, 5], 1)], e.1.length < asn1OidMaxLen := by
      decide
    rw [registered_pairAgent] at hp
    exact hall (p, callback) hp

/-- The walk from `1` goes on from the first view to the second one, and comes to its end. -/
theorem mibGetnext_walk_pair :
    Oid.Small [1] ∧ ∃ os : List Oid, os.Pairwise (· < ·) ∧
      (∀ o, o ∈ os ↔ o ∈ walkSet pairAgent.root (fun _ => {[0]}) [[1], [2]] [1]) ∧
        [1, 3, 0] ∈ os ∧ [2, 5, 0] ∈ os ∧
        Walks pairAgent { contextName := [0x70] } asn1TagNul os [1] ⟨(), []⟩ := by
  have hsmall : Oid.Small [1] := by simp [Oid.Small]
  obtain ⟨os, hsort, hmem, hwalks⟩ :=
    (mibGetnext_walk_iff pairAgent_walkable asn1TagNul hsmall ⟨(), []⟩).mpr (.inl (by simp))
  refine ⟨hsmall, os, hsort, hmem, (hmem _).mpr ?_, (hmem _).mpr ?_, hwalks⟩
  · exact ⟨⟨[1, 3], 0, [0], by simp [registered_pairAgent], rfl, rfl⟩, ⟨[1], by decide⟩, by decide⟩
  · exact ⟨⟨[2, 5], 1, [0], by simp [registered_pairAgent], rfl, rfl⟩, ⟨[2], by decide⟩, by decide⟩

/-- An agent with a user `u` that has no views. -/
def viewlessAgent : Agent Unit where
  handlers := scalarHandlers
  root := .group []
  views := mibUserCreate plainCrypto ⟨0, 0, [], []⟩ {} [0x75] 0 [] 0 []

/-- A walk of the user without views: the answer is the request itself, with the value
type NULL, and no list of OIDs is a walk. -/
theorem viewlessAgent_no_walk :
    let sdg : SnmpDatagram := { version := 3, user := viewlessAgent.views.users.head? }
    Walkable viewlessAgent sdg (fun _ => {[0]}) [] ∧
      (mibGetnext viewlessAgent sdg [1] { request := .getnext, var := { tag := asn1TagNul } }
        ⟨(), []⟩).1.map (fun r => (r.oid, r.var.tag, r.errStat)) =
          some ([1], asn1TagNul, 0) ∧
      ¬ ∃ os : List Oid, (∀ o, o ∈ os ↔ o ∈ walkSet viewlessAgent.root (fun _ => {[0]}) [] [1]) ∧
        Walks viewlessAgent sdg asn1TagNul os [1] ⟨(), []⟩ := by
  refine ⟨?_, by decide, ?_⟩
  · refine ⟨.init, ?_, ?_, by decide, by simp, ?_, ?_⟩
    · dsimp only [viewlessAgent]
      exact .userCreate _ _ _ _ _ _ _ .init
    · intro u hu
      exact mem_of_mem_head? hu
    · rintro o ⟨p, callback, x, hp, -⟩
      exact absurd hp not_mem_nil
    · exact scalarHandlers_enumerates (fun _ => trivial) fun p callback hp =>
        absurd hp not_mem_nil
  · rintro ⟨os, hmem, hwalks⟩
    obtain rfl : os = [] := by
      refine eq_nil_iff_forall_not_mem.mpr fun o ho => ?_
      obtain ⟨-, ⟨v, hv, -⟩, -⟩ := (hmem o).mp ho
      exact absurd hv not_mem_nil
    obtain ⟨r, w', hrun, -, htag⟩ :=
      hwalks { request := .getnext, var := { tag := asn1TagNul } } rfl rfl
    rw [mibGetnext_no_views (by decide)] at hrun
    obtain ⟨hr, -⟩ := Prod.mk.inj hrun
    obtain rfl := Option.some.inj hr
    exact absurd htag (by decide)

end SmithSnmp
