import Mathlib.Data.Set.Finite.List
import Mathlib.Order.Preorder.Finite
import SmithSnmp.MibTraversal

/-!
# What GETNEXT Finds in One View

`mib_tree_search_next` for one view, as the queries it makes and, for handlers that
enumerate their instances, as the OID it returns.

The search starts at the node where the descent along the view OID ends. For a request OID
in the view it asks for what follows that OID, for one ahead of the view for what follows
the view OID itself, and for one behind the view it asks nothing.

## Main results

* `mibTreeSearchNext_eq`: the search probes the view OID and makes the queries
  `nextQueries`.
* `mibTreeSearchNext_spec`: with handlers that enumerate their instances it returns the
  least instance of `nextSet`, and `END_OF_MIB_VIEW` when there is none.
-/

namespace SmithSnmp

open List Lib MibNode Option Traced

variable {σ : Type}

variable {root : MibNode} {d : ℕ} {p t view orig x : Oid} {rs : List (Oid × Int)} {q : Query}
  {h : Handlers σ} {I : Int → Set Oid} {Ans : Int → Oid → LuaVal → UInt8 → Prop} {qs : List Query}

/-! ### The search as queries -/

theorem mibInstanceSearch_apply (h : Handlers σ) (path : Oid) (ret : OidSearchRes)
    (w : World Event σ) :
    mibInstanceSearch h path ret w =
      (takeReply path ret (h.call ret.callback ret.request ret.instId
          (if ret.request = .set then some (luaPush ret.var) else none) w.state).1,
        { state := (h.call ret.callback ret.request ret.instId
            (if ret.request = .set then some (luaPush ret.var) else none) w.state).2,
          log := w.log ++ [.call ret.request ret.callback (path ++ ret.instId)] }) := by
  simp only [mibInstanceSearch, Traced.bind_apply, Traced.emit_apply, Traced.access_apply]
  cases takeReply path ret (h.call ret.callback ret.request ret.instId
    (if ret.request = .set then some (luaPush ret.var) else none) w.state).1 <;> rfl

theorem takeReply_eq_some {path : Oid} {ret r : OidSearchRes} {reply : Reply}
    (h : takeReply path ret reply = some r) :
    r.request = ret.request ∧ r.oid = ret.oid ∧ r.callback = ret.callback ∧
      (ret.request ≠ .getnext → r.instId = ret.instId) := by
  unfold takeReply at h
  split at h
  · cases h
    exact ⟨rfl, rfl, rfl, fun _ => rfl⟩
  · split at h
    · split at h
      · cases h
        exact ⟨rfl, rfl, rfl, fun _ => rfl⟩
      · split at h
        · cases h
          exact ⟨rfl, rfl, rfl, fun hne => if_neg hne⟩
        · cases h
    · cases h
      exact ⟨rfl, rfl, rfl, fun _ => rfl⟩

/-- The search at the view OID with which `mib_tree_search_next` begins. -/
def viewProbe (h : Handlers σ) (root : MibNode) (view : Oid) (ret : OidSearchRes) :
    AgentM σ OidSearchRes := do
  let (_, ret) ← mibTreeSearch h root view view { ret with request := .get }
  pure { ret with request := .getnext, errStat := 0 }

/-- Whether the search enters the view: the OID is in it or ahead of it. -/
def Entered (view orig : Oid) : Prop := view <+: orig ∨ oidCmp orig view < 0

instance (view orig : Oid) : Decidable (Entered view orig) := by
  unfold Entered
  infer_instance

/-- The queries of the search in one view. -/
def nextQueries (root : MibNode) (view orig : Oid) : List Query :=
  let (node, rest) := mibTreeWalk view root
  let depth := view.length - rest.length
  if view <+: orig then queries (view.take depth) (orig.drop depth) (registered node)
  else queries (view.take depth) (if node.isGroup then [] else rest) (registered node)

theorem mibTreeSearch_self (h : Handlers σ) (root : MibNode) (view : Oid) (ret : OidSearchRes)
    (hget : ret.request = .get) {w w' : World Event σ} {node : Option MibNode}
    {r : OidSearchRes} (hrun : mibTreeSearch h root view view ret w = (some (node, r), w')) :
    node = some (mibTreeWalk view root).1 ∧ r.instId = (mibTreeWalk view root).2 ∧
      r.oid = view := by
  have hcover : ¬ oidCover view view ≤ 0 :=
    not_le.mpr ((oidCover_pos_iff view view).mpr (prefix_refl view))
  rw [mibTreeSearch] at hrun
  simp only [hcover, if_false] at hrun
  rcases hwalk : mibTreeWalk view root with ⟨⟨subs⟩ | callback, rest⟩
  · simp only [hwalk] at hrun
    obtain ⟨heq, -⟩ := pure_eq_some_iff.mp hrun
    cases heq
    exact ⟨rfl, rfl, rfl⟩
  · cases rest with
    | nil =>
      simp only [hwalk] at hrun
      obtain ⟨heq, -⟩ := pure_eq_some_iff.mp hrun
      cases heq
      exact ⟨rfl, rfl, rfl⟩
    | cons x rest =>
      simp only [hwalk] at hrun
      obtain ⟨ret', w₁, hcall, hpure⟩ := bind_eq_some_iff.mp hrun
      obtain ⟨heq, -⟩ := pure_eq_some_iff.mp hpure
      cases heq
      rw [mibInstanceSearch_apply] at hcall
      obtain ⟨-, hoid, -, hinst⟩ := takeReply_eq_some (Prod.mk.inj hcall).1
      exact ⟨rfl, hinst (by simp [hget]), hoid⟩

/-- The initial state of the traversal below a node of the tree, following `t`. -/
theorem searchLoop_start {node : MibNode} {imm : Bool} (h : Handlers σ) (ret : OidSearchRes)
    (hwf : root.Wf d) (hleads : Leads root p node) (ht : node.isGroup = true → imm = false → t ≠ []) :
    searchLoop h view orig (nodeRounds root + 1)
        { node := some node, path := p, rest := t, immediate := imm } ret =
      runQueries h view orig (queries p (if imm then [] else t) (registered node)) ret := by
  rw [searchLoop_eq_runQueries]
  · congr 1
    cases imm with
    | true => simp [SearchState.pending, SearchState.current, entryQueries_node, stackQueries]
    | false => simp [SearchState.pending, SearchState.current, stackQueries]
  · intro himm
    refine ⟨rfl, fun node' hn => ?_⟩
    obtain rfl := some.inj hn
    exact ⟨hleads.wf hwf, fun hg => ht hg himm⟩
  · have := hleads.rounds_le
    simp only [SearchState.rounds, getD_none, entryRounds_node, map_nil,
      sum_nil]
    split <;> omega

/-- The state in which the loop begins: at the node where the descent along the view OID
ends, or at none when the OID is behind the view. -/
def searchStart (root : MibNode) (view orig : Oid) : SearchState :=
  let (node, rest) := mibTreeWalk view root
  let depth := view.length - rest.length
  if view <+: orig then
    { node := some node, path := orig.take depth, rest := orig.drop depth
      immediate := !(decide (depth < orig.length)) }
  else if oidCmp orig view < 0 then
    { node := some node, path := view.take depth, rest := view.drop depth
      immediate := node.isGroup }
  else { node := none, path := [], rest := [], immediate := false }

theorem mibTreeSearchNext_start (h : Handlers σ) (root : MibNode) (view orig : Oid)
    (ret : OidSearchRes) :
    mibTreeSearchNext h root view orig ret =
      if Entered view orig then do
        let ret ← viewProbe h root view ret
        searchLoop h view orig (nodeRounds root + 1) (searchStart root view orig)
          { ret with oid := if view <+: orig then orig else view }
      else searchLoop h view orig (nodeRounds root + 1) (searchStart root view orig)
        { ret with oid := view, errStat := 0 } := by
  rw [mibTreeSearchNext, searchStart]
  by_cases hcov : view <+: orig
  · have hpos := (oidCover_pos_iff view orig).mpr hcov
    have hent : Entered view orig := .inl hcov
    simp only [hpos, if_true, hent, hcov, viewProbe, Traced.bind_assoc]
    refine Traced.bind_congr ?_
    rintro w ⟨node, r⟩ w' hrun
    obtain ⟨rfl, hinst, -⟩ := mibTreeSearch_self h root view _ rfl hrun
    simp only [pure_bind, hinst]
  · have hpos : ¬ 0 < oidCover view orig := fun hp => hcov ((oidCover_pos_iff view orig).mp hp)
    by_cases hcmp : oidCmp orig view < 0
    · have hent : Entered view orig := .inr hcmp
      simp only [hpos, if_false, hcmp, if_true, hent, hcov, viewProbe, Traced.bind_assoc]
      refine Traced.bind_congr ?_
      rintro w ⟨node, r⟩ w' hrun
      obtain ⟨rfl, hinst, hoid⟩ := mibTreeSearch_self h root view _ rfl hrun
      simp only [pure_bind, hinst, ← hoid]
    · have hent : ¬ Entered view orig := not_or.mpr ⟨hcov, hcmp⟩
      simp only [hpos, if_false, hcmp, hent, hcov]

/-- **The search as queries.** In a view that is entered, `mib_tree_search_next` probes the
view OID and makes the queries of `nextQueries`. -/
theorem mibTreeSearchNext_eq (h : Handlers σ) (hwf : root.Wf d) (view orig : Oid)
    (ret : OidSearchRes) :
    mibTreeSearchNext h root view orig ret =
      if Entered view orig then do
        let ret ← viewProbe h root view ret
        runQueries h view orig (nextQueries root view orig)
          { ret with oid := if view <+: orig then orig else view }
      else pure (endOfMibView orig ret) := by
  obtain ⟨p, hview, hleads, -⟩ := mibTreeWalk_leads hwf view
  have hdepth : view.length - (mibTreeWalk view root).2.length = p.length := by
    have := congrArg List.length hview
    simp at this
    omega
  have htake : view.take p.length = p := by
    rw [hview]
    simp
  have hdrop : view.drop p.length = (mibTreeWalk view root).2 := by
    conv_lhs => rw [hview]
    simp
  rw [mibTreeSearchNext_start]
  by_cases hcov : view <+: orig
  · have hent : Entered view orig := .inl hcov
    have htake' : orig.take p.length = p := by
      obtain ⟨z, rfl⟩ := hcov
      rw [hview]
      simp
    have hlen : p.length ≤ orig.length := by
      rw [← htake', length_take]
      omega
    simp only [hent, if_true, searchStart, hcov, hdepth, htake', htake, nextQueries]
    refine congrArg _ (funext fun r => ?_)
    rw [searchLoop_start h _ hwf hleads]
    · congr 2
      by_cases hlt : p.length < orig.length
      · simp [hlt]
      · have : orig.drop p.length = [] := drop_of_length_le (by omega)
        simp [hlt, this]
    · intro _ himm hnil
      have := congrArg List.length hnil
      simp at himm this
      omega
  · by_cases hcmp : oidCmp orig view < 0
    · have hent : Entered view orig := .inr hcmp
      simp only [hent, if_true, searchStart, hcov, if_false, hcmp, hdepth, htake, hdrop,
        nextQueries]
      refine congrArg _ (funext fun r => ?_)
      rw [searchLoop_start h _ hwf hleads]
      intro hg himm
      simp [hg] at himm
    · have hent : ¬ Entered view orig := not_or.mpr ⟨hcov, hcmp⟩
      simp only [hent, if_false, searchStart, hcov, hcmp]
      rw [searchLoop]
      rfl

/-! ### Where the queries lie -/

/-- The queries, one for each instance node at or behind the OID. -/
theorem mem_queries_iff :
    q ∈ queries p t rs ↔ ∃ r, (r, q.callback) ∈ rs ∧ q.path = p ++ r ∧
      (t = r ++ q.suffix ∨ (¬ r <+: t ∧ t < r ∧ q.suffix = [])) := by
  rw [queries, mem_filterMap]
  constructor
  · rintro ⟨⟨r, callback⟩, hr, hq⟩
    unfold query at hq
    split at hq
    · next hpre =>
        obtain rfl := some.inj hq
        obtain ⟨b, rfl⟩ := hpre
        exact ⟨r, hr, rfl, .inl (by simp)⟩
    · next hpre =>
        split at hq
        · next hlt =>
            obtain rfl := some.inj hq
            exact ⟨r, hr, rfl, .inr ⟨hpre, hlt, rfl⟩⟩
        · cases hq
  · obtain ⟨path, callback, suffix⟩ := q
    rintro ⟨r, hr, rfl, rfl | ⟨hpre, hlt, rfl⟩⟩
    · exact ⟨(r, callback), hr, by simp [query]⟩
    · exact ⟨(r, callback), hr, by simp [query, hpre, hlt]⟩

/-- The queries ascend: whatever a handler answers lies before what a later one can
answer. -/
theorem queries_ordered (h : rs.Pairwise fun a b => a.1 < b.1 ∧ ¬ a.1 <+: b.1) :
    (queries p t rs).Pairwise fun a b => ∀ x y, a.path ++ x < b.path ++ y := by
  have hpath : ∀ r q, query p t r = some q → q.path = p ++ r.1 := by
    intro r q hq
    unfold query at hq
    split at hq
    · cases hq
      rfl
    · split at hq
      · cases hq
        rfl
      · cases hq
  refine h.filterMap _ ?_
  rintro a b ⟨hlt, hnp⟩ qa hqa qb hqb x y
  rw [hpath a qa hqa, hpath b qb hqb, append_assoc, append_assoc,
    append_lt_append_left_iff]
  exact append_lt_append_of_lt hlt hnp x y

/-- What answers a query lies behind the OID. -/
theorem lt_of_mem_queries (hq : q ∈ queries p t rs) (hx : q.suffix < x) : p ++ t < q.path ++ x := by
  obtain ⟨r, -, hpath, rfl | ⟨hpre, hlt, -⟩⟩ := mem_queries_iff.mp hq
  · simpa [hpath] using hx
  · rw [hpath, append_assoc, append_lt_append_left_iff]
    exact lt_of_lt_of_le hlt (le_of_extends (prefix_append r x))

/-- What lies behind the OID at an instance node answers its query. -/
theorem exists_query_of_lt {r : Oid} {callback : Int} (hr : (r, callback) ∈ rs) (hx : x ≠ [])
    (hlt : t < r ++ x) :
    ∃ q ∈ queries p t rs, q.path = p ++ r ∧ q.callback = callback ∧ q.suffix < x := by
  by_cases hpre : r <+: t
  · obtain ⟨b, rfl⟩ := hpre
    refine ⟨⟨p ++ r, callback, b⟩, mem_queries_iff.mpr ⟨r, hr, rfl, .inl rfl⟩, rfl, rfl, ?_⟩
    simpa using hlt
  · have htr : t < r := by
      by_contra hge
      have hrt : r < t := lt_of_le_of_ne (not_lt.mp hge) fun he => hpre (he ▸ prefix_refl r)
      have := append_lt_append_of_lt hrt hpre x []
      rw [append_nil] at this
      exact absurd hlt (not_lt.mpr this.le)
    exact ⟨⟨p ++ r, callback, []⟩, mem_queries_iff.mpr ⟨r, hr, rfl, .inr ⟨hpre, htr, rfl⟩⟩,
      rfl, rfl, nil_lt_iff.mpr hx⟩

/-- What the search in a view starts from: the OID asked for when it is in the view, the
view OID itself otherwise. -/
def nextBase (view orig : Oid) : Oid := if view <+: orig then orig else view

theorem view_le_nextBase (view orig : Oid) : view ≤ nextBase view orig := by
  unfold nextBase
  split
  · next h => exact le_of_extends h
  · exact le_rfl

/-- **The aim of the search.** The queries go to the instance nodes below some node; either
they ask for what follows `nextBase`, and the instance nodes around the view are among
them, or the descent along the view OID is stuck at a group and there is nothing in the
view. -/
theorem nextQueries_aim (hwf : root.Wf d) (view orig : Oid) :
    ∃ p t node, Leads root p node ∧ nextQueries root view orig = queries p t (registered node) ∧
      ((p ++ t = nextBase view orig ∧ ∀ q callback o, (q, callback) ∈ registered root →
          q <+: o → view <+: o → ∃ r, q = p ++ r ∧ (r, callback) ∈ registered node) ∨
        ((∀ r callback x, (r, callback) ∈ registered node → Incomparable view (p ++ r ++ x)) ∧
          ∀ q callback o, (q, callback) ∈ registered root → q <+: o → ¬ view <+: o)) := by
  obtain ⟨p, hview, hleads, hstuck⟩ := mibTreeWalk_leads hwf view
  rcases hwalk : mibTreeWalk view root with ⟨node, rest⟩
  rw [hwalk] at hview hleads hstuck
  dsimp only at hview hleads hstuck
  subst hview
  have hbelow : ∀ q callback o, (q, callback) ∈ registered root → q <+: o → p ++ rest <+: o →
      ∃ r, q = p ++ r ∧ (r, callback) ∈ registered node := by
    intro q callback o hq hqo hvo
    have hpo : p <+: o := (prefix_append p rest).trans hvo
    rcases prefix_or_prefix_of_prefix hpo hqo with ⟨r, rfl⟩ | hqp
    · exact ⟨r, rfl, (hleads.registered_iff hwf r callback).mp hq⟩
    · obtain rfl := hleads.registered_above hwf hq hqp
      exact ⟨[], by simp, (hleads.registered_iff hwf [] callback).mp (by simpa using hq)⟩
  by_cases hcov : p ++ rest <+: orig
  · refine ⟨p, orig.drop p.length, node, hleads, ?_, .inl ⟨?_, hbelow⟩⟩
    · simp [nextQueries, hwalk, hcov]
    · obtain ⟨z, rfl⟩ := hcov
      simp [nextBase]
  · by_cases hst : node.isGroup = true ∧ rest ≠ []
    · -- stuck at a group: nothing in the view
      obtain ⟨hg, hne⟩ := hst
      refine ⟨p, [], node, hleads, by simp [nextQueries, hwalk, hcov, hg], .inr ⟨?_, ?_⟩⟩
      · intro r callback x hr
        refine ⟨fun hpre => ?_, fun hpre => ?_⟩
        · rw [append_assoc, prefix_append_right_inj] at hpre
          exact hne (hstuck.registered hr hpre (prefix_append r x) hg)
        · rw [append_assoc, prefix_append_right_inj] at hpre
          exact hne (hstuck.registered hr (prefix_refl rest)
            ((prefix_append r x).trans hpre) hg)
      · intro q callback o hq hqo hvo
        obtain ⟨r, rfl, hr⟩ := hbelow q callback o hq hqo hvo
        obtain ⟨z, rfl⟩ := hvo
        rw [append_assoc, prefix_append_right_inj] at hqo
        exact hne (hstuck.registered hr (prefix_append rest z) hqo hg)
    · refine ⟨p, rest, node, hleads, ?_, .inl ⟨?_, hbelow⟩⟩
      · by_cases hg : node.isGroup = true
        · have : rest = [] := by
            by_contra hne
            exact hst ⟨hg, hne⟩
          subst this
          simp only [nextQueries, hwalk, hcov, if_false, hg, if_true]
          simp
        · simp [nextQueries, hwalk, hcov, hg]
      · simp [nextBase, hcov]

theorem nextQueries_registered (hwf : root.Wf d) (hq : q ∈ nextQueries root view orig) :
    (q.path, q.callback) ∈ registered root := by
  obtain ⟨p, t, node, hleads, heq, -⟩ := nextQueries_aim hwf view orig
  rw [heq] at hq
  obtain ⟨r, hr, hpath, -⟩ := mem_queries_iff.mp hq
  rw [hpath]
  exact (hleads.registered_iff hwf r q.callback).mpr hr

/-- The queries of a search ascend. -/
theorem nextQueries_ordered (hwf : root.Wf d) (view orig : Oid) :
    (nextQueries root view orig).Pairwise fun a b => ∀ x y, a.path ++ x < b.path ++ y := by
  obtain ⟨p, t, node, hleads, heq, -⟩ := nextQueries_aim hwf view orig
  obtain ⟨d', hd'⟩ := hleads.wf hwf
  rw [heq]
  exact queries_ordered (registered_ordered hd')

/-- What can be said of the answers to a query: they lie behind the view OID, or apart from
the view. -/
def Query.Beside (view : Oid) (q : Query) : Prop :=
  (∀ x, q.suffix < x → view < q.path ++ x) ∨ ∀ x, Incomparable view (q.path ++ x)

theorem nextQueries_beside (hwf : root.Wf d) (hq : q ∈ nextQueries root view orig) :
    q.Beside view := by
  obtain ⟨p, t, node, hleads, heq, ⟨hbase, -⟩ | ⟨hinc, -⟩⟩ := nextQueries_aim hwf view orig
  · rw [heq] at hq
    refine .inl fun x hx => ?_
    have := lt_of_mem_queries hq hx
    rw [hbase] at this
    exact lt_of_le_of_lt (view_le_nextBase view orig) this
  · rw [heq] at hq
    obtain ⟨r, hr, hpath, -⟩ := mem_queries_iff.mp hq
    refine .inr fun x => ?_
    rw [hpath]
    exact hinc r q.callback x hr

theorem Query.Beside.cover (h : q.Beside view) (hx : q.suffix < x)
    (hcov : oidCover view (q.path ++ x) ≠ 0) : view <+: q.path ++ x := by
  by_contra hnp
  rcases h with hlt | hinc
  · have hback : q.path ++ x <+: view := by
      by_contra hnb
      exact hcov ((oidCover_eq_zero_iff _ _).mpr ⟨hnp, hnb⟩)
    exact absurd (hlt x hx) (not_lt.mpr (le_of_extends hback))
  · exact hcov ((oidCover_eq_zero_iff _ _).mpr (hinc x))

theorem Query.Beside.miss (h : q.Beside view) {y : Oid} (hx : q.suffix < x) (hxy : x ≤ y)
    (hmiss : ¬ view <+: q.path ++ x) : ¬ view <+: q.path ++ y := by
  intro hy
  rcases h with hlt | hinc
  · exact hmiss (prefix_of_between (prefix_refl view) hy (hlt x hx).le (by simpa using hxy))
  · exact (hinc y).1 hy

/-! ### Handlers that enumerate their instances -/

/-- The instance OIDs of a tree whose handlers have the instances `I`. -/
def Instances (root : MibNode) (I : Int → Set Oid) : Set Oid :=
  {o | ∃ p callback x, (p, callback) ∈ registered root ∧ x ∈ I callback ∧ o = p ++ x}

/-- A handler has no more instances behind `s`: an error or an invalid tag. -/
def Reply.IsMiss : Reply → Prop
  | .fail => True
  | .ret _ _ _ tag => asn1TagValid tag = false

/-- The reply is the instance `m`, with a value that can be copied and satisfies `Ans`. -/
def Reply.IsHit (Ans : LuaVal → UInt8 → Prop) (m : Oid) (reply : Reply) : Prop :=
  ∃ val tag, reply = .ret 0 m val tag ∧ asn1TagCopied tag = true ∧ Ans val tag

/-- The registered handlers enumerate the instances `I`: GETNEXT for `s` is answered with
the least instance greater than `s`, the first one when `s` is empty, with a value and a
tag that satisfy `Ans`, and with an invalid tag when there is none. Instance OIDs have at
most `ASN1_OID_MAX_LEN` sub-identifiers. -/
structure Enumerates (h : Handlers σ) (root : MibNode) (I : Int → Set Oid)
    (Ans : Int → Oid → LuaVal → UInt8 → Prop) : Prop where
  /-- the least greater instance is returned -/
  next : ∀ p callback, (p, callback) ∈ registered root → ∀ s m w,
    IsLeast {x | x ∈ I callback ∧ s < x} m →
      (h.call callback .getnext s none w).1.IsHit (Ans callback m) m
  /-- for the empty suffix this is the first instance -/
  first : ∀ p callback, (p, callback) ∈ registered root → ∀ m w,
    IsLeast (I callback) m → (h.call callback .getnext [] none w).1.IsHit (Ans callback m) m
  /-- behind the last instance there is a miss -/
  last : ∀ p callback, (p, callback) ∈ registered root → ∀ s w,
    (∀ x ∈ I callback, ¬ s < x) → (h.call callback .getnext s none w).1.IsMiss
  /-- instance OIDs are not too long -/
  fits : ∀ o ∈ Instances root I, o.length ≤ asn1OidMaxLen

/-- The value of a variable is the one that a handler returned. -/
def Variable.Holds (var : Variable) (val : LuaVal) (tag : UInt8) : Prop :=
  var.tag = tag ∧ var.len = (luaCopy tag val).1 ∧
    ∃ old, var.value = pokeBytes old (luaCopy tag val).2

/-- The outcome of a GETNEXT search over the instances in `S`: the least of them, with a
value that satisfies `Ans`, or `END_OF_MIB_VIEW` with the OID asked for. -/
def NextOutcome (S : Set Oid) (Ans : Oid → LuaVal → UInt8 → Prop) (orig : Oid)
    (r : OidSearchRes) : Prop :=
  r.request = .getnext ∧ r.errStat = 0 ∧
    ((∃ val tag, IsLeast S r.oid ∧ Ans r.oid val tag ∧ asn1TagCopied tag = true ∧
        r.var.Holds val tag) ∨
      (S = ∅ ∧ r.oid = orig ∧ r.var.tag = asn1TagEndOfMibView))

/-- The values that the handlers of a tree return for an instance OID. -/
def treeAns (root : MibNode) (Ans : Int → Oid → LuaVal → UInt8 → Prop) (o : Oid)
    (val : LuaVal) (tag : UInt8) : Prop :=
  ∃ p callback x, (p, callback) ∈ registered root ∧ o = p ++ x ∧ Ans callback x val tag

theorem asn1TagValid_of_copied {tag : UInt8} (h : asn1TagCopied tag = true) :
    asn1TagValid tag = true := by
  simp only [asn1TagCopied, Bool.or_eq_true, decide_eq_true_eq] at h
  rcases h with (((((rfl | rfl) | rfl) | rfl) | rfl) | rfl) | rfl <;> decide

instance instFiniteUInt32 : Finite UInt32 :=
  Finite.of_injective UInt32.toFin fun _ _ h => UInt32.toFin_inj.mp h

/-- Instances behind a suffix: none, or a least one, as their OIDs are bounded. -/
theorem Enumerates.least_or_none (henum : Enumerates h root I Ans) {callback : Int}
    (hp : (p, callback) ∈ registered root) (s : Oid) :
    (∀ x ∈ I callback, ¬ s < x) ∨ ∃ m, IsLeast {x | x ∈ I callback ∧ s < x} m := by
  by_cases hne : ∃ x ∈ I callback, s < x
  · right
    have hfin : {x | x ∈ I callback ∧ s < x}.Finite := by
      refine (finite_length_le UInt32 asn1OidMaxLen).subset ?_
      rintro x ⟨hx, -⟩
      have := henum.fits (p ++ x) ⟨p, callback, x, hp, hx, rfl⟩
      rw [length_append] at this
      change x.length ≤ asn1OidMaxLen
      omega
    obtain ⟨x, hx, hsx⟩ := hne
    obtain ⟨m, hm⟩ := hfin.exists_minimal ⟨x, hx, hsx⟩
    refine ⟨m, hm.prop, fun y hy => ?_⟩
    rcases le_total m y with hle | hle
    · exact hle
    · exact hm.le_of_le hy hle
  · left
    intro x hx hsx
    exact hne ⟨x, hx, hsx⟩

/-- The OID of an instance node itself is no instance: it would have to be both the first
instance and greater than the empty suffix. -/
theorem Enumerates.suffix (henum : Enumerates h root I Ans) [Nonempty σ] (p : Oid) (callback : Int)
    (hp : (p, callback) ∈ registered root) : [] ∉ I callback := by
  intro hnil
  obtain ⟨w⟩ := ‹Nonempty σ›
  have hleast : IsLeast (I callback) [] := ⟨hnil, fun x _ => le_of_extends nil_prefix⟩
  obtain ⟨val, tag, hrep, hcop, -⟩ := henum.first p callback hp [] w hleast
  rcases henum.least_or_none hp [] with hnone | ⟨m, hm⟩
  · have hmiss := henum.last p callback hp [] w hnone
    rw [hrep, Reply.IsMiss, asn1TagValid_of_copied hcop] at hmiss
    cases hmiss
  · obtain ⟨val', tag', hrep', -, -⟩ := henum.next p callback hp [] m w hm
    rw [hrep] at hrep'
    obtain ⟨-, rfl, -, -⟩ := Reply.ret.inj hrep'
    exact lt_irrefl _ hm.1.2

/-- The instances that answer a query in the view. -/
def answers (I : Int → Set Oid) (view : Oid) (qs : List Query) : Set Oid :=
  {o | ∃ q ∈ qs, ∃ x ∈ I q.callback, q.suffix < x ∧ o = q.path ++ x ∧ view <+: o}

/-- A query without answers in the view can be left out. -/
theorem answers_cons_of_miss (h : ∀ x ∈ I q.callback, q.suffix < x → ¬ view <+: q.path ++ x) :
    answers I view (q :: qs) = answers I view qs := by
  ext o
  constructor
  · rintro ⟨q', hq', x, hx, hlt, rfl, hcov⟩
    rcases mem_cons.mp hq' with rfl | hq'
    · exact absurd hcov (h x hx hlt)
    · exact ⟨q', hq', x, hx, hlt, rfl, hcov⟩
  · rintro ⟨q', hq', x, hx, hlt, rfl, hcov⟩
    exact ⟨q', mem_cons_of_mem q hq', x, hx, hlt, rfl, hcov⟩

/-- The least answer to the first query is the least of all, when the queries ascend. -/
theorem isLeast_answers_cons {m : Oid} (hord : ∀ q' ∈ qs, ∀ x y, q.path ++ x < q'.path ++ y)
    (hm : IsLeast {x | x ∈ I q.callback ∧ q.suffix < x} m) (hcov : view <+: q.path ++ m) :
    IsLeast (answers I view (q :: qs)) (q.path ++ m) := by
  refine ⟨⟨q, by simp, m, hm.1.1, hm.1.2, rfl, hcov⟩, ?_⟩
  rintro o ⟨q', hq', x, hx, hlt, rfl, -⟩
  rcases mem_cons.mp hq' with rfl | hq'
  · simpa using hm.2 ⟨hx, hlt⟩
  · exact (hord q' hq' m x).le

/-- **Run lemma.** Queries that ascend, beside the view, to handlers that enumerate their
instances find the least answer in the view. -/
theorem runQueries_outcome (henum : Enumerates h root I Ans)
    (hreg : ∀ q ∈ qs, (q.path, q.callback) ∈ registered root)
    (hord : qs.Pairwise fun a b => ∀ x y, a.path ++ x < b.path ++ y)
    (hside : ∀ q ∈ qs, q.Beside view) (ret : OidSearchRes) (hret : ret.request = .getnext)
    (w : World Event σ) :
    ∃ r w', runQueries h view orig qs ret w = (some r, w') ∧
      NextOutcome (answers I view qs) (treeAns root Ans) orig r := by
  induction qs generalizing ret w with
  | nil =>
    refine ⟨endOfMibView orig ret, w, rfl, hret, rfl, .inr ⟨?_, rfl, rfl⟩⟩
    ext o
    simp [answers]
  | cons q qs ih =>
    obtain ⟨hhead, htail⟩ := pairwise_cons.mp hord
    have hqreg := hreg q (by simp)
    have hqside := hside q (by simp)
    have hgo := fun ret => ih (fun q' hq' => hreg q' (by simp [hq'])) htail
      (fun q' hq' => hside q' (by simp [hq'])) ret
    rw [runQueries]
    rw [Traced.bind_apply, mibInstanceSearch_apply]
    simp only [hret, reduceCtorEq, if_false]
    rcases henum.least_or_none hqreg q.suffix with hnone | ⟨m, hm⟩
    · -- no instance behind the suffix: the next query
      rw [answers_cons_of_miss fun x hx hlt => absurd hlt (hnone x hx)]
      have hmiss := henum.last q.path q.callback hqreg q.suffix w.state hnone
      rcases hrep : (h.call q.callback .getnext q.suffix none w.state).1 with
        _ | ⟨err, sub, val, tag⟩
      · simp only [takeReply, show asn1TagValid asn1TagNoSuchObj = false from rfl,
          Bool.false_eq_true, if_false]
        exact hgo _ rfl _
      · have htag : asn1TagValid tag = false := by
          rw [hrep] at hmiss
          exact hmiss
        simp only [takeReply, htag, Bool.false_eq_true, and_false, if_false]
        exact hgo _ rfl _
    · obtain ⟨val, tag, hrep, hcop, hans⟩ :=
        henum.next q.path q.callback hqreg q.suffix m w.state hm
      have hval := asn1TagValid_of_copied hcop
      have hfits := henum.fits (q.path ++ m) ⟨q.path, q.callback, m, hqreg, hm.1.1, rfl⟩
      simp only [hrep, takeReply, hval, and_self, if_true, reduceCtorEq, if_false, hcop,
        not_lt.mpr hfits]
      by_cases hcov : oidCover view (q.path ++ m) = 0
      · -- an answer outside the view: the greater ones miss it as well
        have hmiss := ((oidCover_eq_zero_iff _ _).mp hcov).1
        rw [answers_cons_of_miss fun x hx hlt => hqside.miss hm.1.2 (hm.2 ⟨hx, hlt⟩) hmiss,
          if_pos hcov]
        exact hgo _ rfl _
      · rw [if_neg hcov]
        refine ⟨_, _, rfl, rfl, rfl, .inl ⟨val, tag, ?_, ?_, hcop, rfl, rfl, _, rfl⟩⟩
        · exact isLeast_answers_cons hhead hm (hqside.cover hm.1.2 hcov)
        · exact ⟨q.path, q.callback, m, hqreg, rfl, hans⟩

/-! ### The outcome of the search -/

/-- The instances among which GETNEXT for `orig` looks in one view. -/
def nextSet (root : MibNode) (I : Int → Set Oid) (view orig : Oid) : Set Oid :=
  {o | o ∈ Instances root I ∧ view <+: o ∧ Entered view orig ∧ nextBase view orig < o}

theorem answers_nextQueries (hwf : root.Wf d)
    (hne : ∀ p callback, (p, callback) ∈ registered root → [] ∉ I callback)
    (hent : Entered view orig) :
    answers I view (nextQueries root view orig) = nextSet root I view orig := by
  obtain ⟨p, t, node, hleads, heq, haim⟩ := nextQueries_aim hwf view orig
  ext o
  constructor
  · rintro ⟨q, hq, x, hx, hlt, rfl, hcov⟩
    refine ⟨⟨_, _, x, nextQueries_registered hwf hq, hx, rfl⟩, hcov, hent, ?_⟩
    rcases haim with ⟨hbase, -⟩ | ⟨hinc, -⟩
    · rw [← hbase]
      exact lt_of_mem_queries (heq ▸ hq) hlt
    · obtain ⟨r, hr, hpath, -⟩ := mem_queries_iff.mp (heq ▸ hq)
      rw [hpath] at hcov
      exact absurd hcov (hinc r q.callback x hr).1
  · rintro ⟨⟨q, callback, x, hq, hx, rfl⟩, hcov, -, hlt⟩
    rcases haim with ⟨hbase, hbelow⟩ | ⟨-, hno⟩
    · obtain ⟨r, rfl, hr⟩ := hbelow q callback _ hq (prefix_append q x) hcov
      have hx0 : x ≠ [] := fun h0 => hne _ callback hq (h0 ▸ hx)
      rw [← hbase, append_assoc, append_lt_append_left_iff] at hlt
      obtain ⟨q', hq', hpath, rfl, hsuf⟩ := exists_query_of_lt (p := p) hr hx0 hlt
      refine ⟨q', heq ▸ hq', x, hx, hsuf, ?_, hcov⟩
      rw [hpath]
    · exact absurd hcov (hno q callback _ hq (prefix_append q x))

/-- **GETNEXT in one view.** With handlers that enumerate their instances, the search
returns the least instance of `nextSet`, and `END_OF_MIB_VIEW` when there is none. -/
theorem mibTreeSearchNext_spec (hwf : root.Wf d) (henum : Enumerates h root I Ans) (view orig : Oid)
    (ret : OidSearchRes) (hret : ret.request = .getnext) (w : World Event σ)
    (hprobe : Entered view orig → ∃ r w', viewProbe h root view ret w = (some r, w')) :
    ∃ r w', mibTreeSearchNext h root view orig ret w = (some r, w') ∧
      NextOutcome (nextSet root I view orig) (treeAns root Ans) orig r := by
  rw [mibTreeSearchNext_eq h hwf]
  by_cases hent : Entered view orig
  · have : Nonempty σ := ⟨w.state⟩
    rw [if_pos hent, ← answers_nextQueries hwf henum.suffix hent]
    obtain ⟨r, w₁, hrun⟩ := hprobe hent
    have hreq : r.request = .getnext := by
      obtain ⟨⟨node, r'⟩, w₂, -, hpure⟩ := bind_eq_some_iff.mp hrun
      obtain ⟨rfl, -⟩ := pure_eq_some_iff.mp hpure
      rfl
    rw [bind_eq_of_some hrun]
    refine runQueries_outcome henum (fun q => nextQueries_registered hwf)
      (nextQueries_ordered hwf view orig) (fun q => nextQueries_beside hwf) _ ?_ w₁
    exact hreq
  · rw [if_neg hent]
    refine ⟨_, w, rfl, hret, rfl, .inr ⟨?_, rfl, rfl⟩⟩
    ext o
    simp [nextSet, hent]

end SmithSnmp
