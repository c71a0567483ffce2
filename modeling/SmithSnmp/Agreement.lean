import SmithSnmp.AllOrNothing
import SmithSnmp.InView
import SmithSnmp.LuaNext

/-!
# GET of What GETNEXT Finds

GETNEXT and GET search for an OID in different ways, in the tree as well as in the groups of the Lua
side. When GETNEXT has reported a value, GET of the OID that it came with reports the same, with two
exceptions. A principal without read views gets back what it sent. And GETNEXT keeps an answer that
is comparable with the view OID, so it reports an instance above a view where the index iterator
stays at it; GET does not reach that instance, as no view covers it.

## Main results

* `getnextViews_found`: where a value of GETNEXT comes from.
* `getnext_get_agree_iff`: when GET agrees with GETNEXT.
-/

namespace SmithSnmp

open List Lib MibNode Traced
open Option hiding any_eq_false

variable {σ : Type}

variable {h : Handlers σ} {view orig oid p : Oid} {st : σ} {q : Query} {val : LuaVal} {tag : UInt8}
  {res ret r : OidSearchRes} {root : MibNode} {w w' : World Event σ} {d : ℕ} {ag : Agent σ}
  {views : List Oid} {callback : Int}

/-! ### Where a value of GETNEXT comes from -/

/-- Reading changes nothing in the tree. -/
def PureReads (h : Handlers σ) (root : MibNode) : Prop :=
  ∀ p callback, (p, callback) ∈ registered root → ∀ request x st,
    (h.call callback request x none st).2 = st

/-- A query of a view has given the search result. -/
structure FoundBy (h : Handlers σ) (view : Oid) (qs : List Query) (st : σ) (q : Query)
    (subOid : Oid) (val : LuaVal) (tag : UInt8) (res : OidSearchRes) : Prop where
  mem : q ∈ qs
  reply : (h.call q.callback .getnext q.suffix none st).1 = .ret 0 subOid val tag
  copied : asn1TagCopied tag = true
  oid : res.oid = q.path ++ subOid
  fits : res.oid.length ≤ asn1OidMaxLen
  kept : oidCover view res.oid ≠ 0
  holds : res.var.Holds val tag

/-- What a view keeps and does not cover lies above it. -/
theorem FoundBy.above {qs : List Query} {subOid : Oid}
    (hf : FoundBy h view qs st q subOid val tag res) (hcov : ¬ view <+: res.oid) :
    ∃ y, y ≠ [] ∧ view = q.path ++ subOid ++ y := by
  have habove : res.oid <+: view := by
    by_contra hnot
    exact hf.kept ((oidCover_eq_zero_iff _ _).mpr ⟨hcov, hnot⟩)
  obtain ⟨y, hy⟩ := habove
  rw [hf.oid] at hcov hy
  refine ⟨y, ?_, hy.symm⟩
  rintro rfl
  exact hcov (by rw [← hy, append_nil])

theorem takeReply_getnext {path : Oid} (hnext : ret.request = .getnext) {reply : Reply}
    (h : takeReply path ret reply = some r) (herr : r.errStat = 0)
    (hvalid : asn1TagValid r.var.tag = true) :
    ∃ subOid val tag, reply = .ret 0 subOid val tag ∧ asn1TagCopied tag = true ∧
      r.instId = subOid ∧ r.var.Holds val tag := by
  cases reply with
  | fail =>
    obtain rfl := some.inj h
    cases hvalid
  | ret errStat subOid val tag =>
    rw [takeReply] at h
    by_cases hfound : errStat = 0 ∧ asn1TagValid tag = true
    · by_cases hcopied : asn1TagCopied tag = true
      · simp only [hfound, hnext, hcopied, and_self, if_true, reduceCtorEq, if_false,
          some.injEq] at h
        subst h
        exact ⟨subOid, val, tag, by rw [hfound.1], hcopied, rfl, rfl, rfl, _, rfl⟩
      · simp [hfound, hnext, hcopied] at h
    · rw [if_neg hfound] at h
      obtain rfl := some.inj h
      exact absurd ⟨herr, hvalid⟩ hfound

/-- **The queries of a search**: nothing is changed, and in the end there is the end of the view, an
error, or what a query has given. -/
theorem runQueries_found (hpure : PureReads h root) {qs : List Query}
    (hqs : ∀ q ∈ qs, (q.path, q.callback) ∈ registered root) (hnext : ret.request = .getnext)
    (hrun : runQueries h view orig qs ret w = (some r, w')) :
    w'.state = w.state ∧ r.request = .getnext ∧ (r.var.tag = asn1TagEndOfMibView ∨
      (asn1TagValid r.var.tag = true ∧ (r.errStat = 0 → ∃ q subOid val tag,
        FoundBy h view qs w.state q subOid val tag r))) := by
  induction qs generalizing ret w with
  | nil =>
    obtain ⟨rfl, rfl⟩ := pure_eq_some_iff.mp hrun
    exact ⟨rfl, hnext, .inl rfl⟩
  | cons q qs ih =>
    obtain ⟨hreg, hqs'⟩ := forall_mem_cons.mp hqs
    rw [runQueries] at hrun
    obtain ⟨r₁, w₁, hsearch, hrest⟩ := bind_eq_some_iff.mp hrun
    rw [mibInstanceSearch_apply] at hsearch
    simp only [hnext, reduceCtorEq, if_false, Prod.mk.injEq] at hsearch
    obtain ⟨htake, rfl⟩ := hsearch
    have hnext₁ : r₁.request = .getnext := (takeReply_eq_some htake).1
    have hstate := hpure q.path q.callback hreg .getnext q.suffix w.state
    -- what a later query gives is given by one of all queries
    have hlater : ∀ {ret' : OidSearchRes} {log : List Event}, ret'.request = .getnext →
        runQueries h view orig qs ret' ⟨w.state, log⟩ = (some r, w') →
        w'.state = w.state ∧ r.request = .getnext ∧ (r.var.tag = asn1TagEndOfMibView ∨
          (asn1TagValid r.var.tag = true ∧ (r.errStat = 0 → ∃ q' subOid val tag,
            FoundBy h view (q :: qs) w.state q' subOid val tag r))) := by
      intro ret' log hnext' hrun'
      obtain ⟨hst, hreq, hout⟩ := ih hqs' hnext' hrun'
      refine ⟨hst, hreq, hout.imp_right fun hval => ⟨hval.1, fun herr => ?_⟩⟩
      obtain ⟨q', subOid, val, tag, hf⟩ := hval.2 herr
      exact ⟨q', subOid, val, tag, { hf with mem := mem_cons_of_mem q hf.mem }⟩
    rw [hstate] at hrest
    by_cases hvalid : asn1TagValid r₁.var.tag = true
    · rw [if_pos hvalid] at hrest
      dsimp only at hrest
      by_cases hlong : asn1OidMaxLen < (q.path ++ r₁.instId).length
      · rw [if_pos hlong] at hrest
        cases hrest
      · rw [if_neg hlong] at hrest
        by_cases hcov : oidCover view (q.path ++ r₁.instId) = 0
        · rw [if_pos hcov] at hrest
          refine hlater ?_ hrest
          exact hnext₁
        · rw [if_neg hcov] at hrest
          obtain ⟨rfl, rfl⟩ := pure_eq_some_iff.mp hrest
          refine ⟨rfl, hnext₁, .inr ⟨hvalid, fun herr => ?_⟩⟩
          have herr₁ : r₁.errStat = 0 := herr
          obtain ⟨subOid, val, tag, hreply, hcopied, hinst, hholds⟩ :=
            takeReply_getnext rfl htake herr₁ hvalid
          exact ⟨q, subOid, val, tag, mem_cons_self, hreply, hcopied, by rw [← hinst],
            not_lt.mp hlong, hcov, hholds⟩
    · rw [if_neg hvalid] at hrest
      exact hlater hnext₁ hrest

theorem viewProbe_pure (hwf : root.Wf d) (hpure : PureReads h root)
    (hrun : viewProbe h root view ret w = (some r, w')) :
    w'.state = w.state ∧ r.request = .getnext := by
  rw [viewProbe] at hrun
  by_cases hreach : Reaches root view view
  · obtain ⟨p, callback, x, -, -, hreg, heq⟩ := mibTreeSearch_of_reaches (h := h) hwf hreach
    rw [heq, Traced.bind_assoc] at hrun
    obtain ⟨r₁, w₁, hsearch, hrest⟩ := Traced.bind_eq_some_iff.mp hrun
    rw [mibInstanceSearch_apply] at hsearch
    obtain ⟨-, rfl⟩ := Prod.mk.inj hsearch
    obtain ⟨rfl, rfl⟩ := pure_eq_some_iff.mp hrest
    exact ⟨hpure p callback hreg .get x w.state, rfl⟩
  · obtain ⟨node, instId, tag, -, heq⟩ :=
      mibTreeSearch_of_not_reaches (h := h) hwf hreach { ret with request := .get }
    rw [heq] at hrun
    obtain ⟨rfl, rfl⟩ := pure_eq_some_iff.mp hrun
    exact ⟨rfl, rfl⟩

/-- **GETNEXT in one view**: nothing is changed, and in the end there is the end of the view, an
error, or what a query has given. -/
theorem searchNext_found (hwf : ag.root.Wf d) (hpure : PureReads ag.handlers ag.root)
    (hnext : ret.request = .getnext) (hrun : searchNext ag orig view ret w = (some r, w')) :
    w'.state = w.state ∧ r.request = .getnext ∧ (r.var.tag = asn1TagEndOfMibView ∨
      (asn1TagValid r.var.tag = true ∧ (r.errStat = 0 → ∃ q subOid val tag,
        FoundBy ag.handlers view (nextQueries ag.root view orig) w.state q subOid val tag r))) := by
  rw [searchNext, mibTreeSearchNext_eq ag.handlers hwf] at hrun
  by_cases hent : Entered view orig
  · rw [if_pos hent] at hrun
    obtain ⟨r₁, w₁, hprobe, hrest⟩ := bind_eq_some_iff.mp hrun
    obtain ⟨hst, hnext₁⟩ := viewProbe_pure hwf hpure hprobe
    rw [← hst]
    refine runQueries_found hpure (fun q hq => nextQueries_registered hwf hq) ?_ hrest
    exact hnext₁
  · rw [if_neg hent] at hrun
    obtain ⟨rfl, rfl⟩ := pure_eq_some_iff.mp hrun
    exact ⟨rfl, hnext, .inl rfl⟩

/-- **GETNEXT over the views.** A valid tag without an error comes from a query of one of them, or
stood there from the start when there are none. -/
theorem getnextViews_found (hwf : ag.root.Wf d) (hpure : PureReads ag.handlers ag.root)
    (hnext : ret.request = .getnext)
    (hrun : overViews (searchNext ag orig) foundNext orig views ret w = (some r, w'))
    (herr : r.errStat = 0) (hvalid : asn1TagValid r.var.tag = true)
    (hret : views = [] → asn1TagValid ret.var.tag = false) :
    ∃ view ∈ views, ∃ q subOid val tag,
      FoundBy ag.handlers view (nextQueries ag.root view orig) w.state q subOid val tag r := by
  induction views generalizing ret w with
  | nil =>
    obtain ⟨rfl, -⟩ := pure_eq_some_iff.mp hrun
    have hno : asn1TagValid ret.var.tag = false := hret rfl
    rw [hno] at hvalid
    cases hvalid
  | cons view views ih =>
    rw [overViews] at hrun
    obtain ⟨r₁, w₁, hsearch, hrest⟩ := bind_eq_some_iff.mp hrun
    obtain ⟨hst, hnext₁, hout⟩ := searchNext_found hwf hpure hnext hsearch
    rcases hout with hend | ⟨hvalid₁, hfound⟩
    · have hgo : ¬ foundNext view r₁ = true := by simp [foundNext, hend]
      rw [if_neg hgo] at hrest
      obtain ⟨v, hv, q, subOid, val, tag, hf⟩ := ih hnext₁ hrest fun _ => by rw [hend]; rfl
      exact ⟨v, mem_cons_of_mem view hv, q, subOid, val, tag, hst ▸ hf⟩
    · have hstop : foundNext view r₁ = true := by
        have hne : r₁.var.tag ≠ asn1TagEndOfMibView := by
          intro heq
          rw [heq] at hvalid₁
          cases hvalid₁
        simpa [foundNext] using hne
      rw [if_pos hstop] at hrest
      obtain ⟨rfl, -⟩ := pure_eq_some_iff.mp hrest
      obtain ⟨q, subOid, val, tag, hf⟩ := hfound herr
      exact ⟨view, mem_cons_self, q, subOid, val, tag, hf⟩

/-- A query at a node above the view OID asks for something in the view. -/
theorem nextQueries_through (hwf : root.Wf d) (hq : q ∈ nextQueries root view orig)
    (habove : q.path <+: view) : view <+: q.path ++ q.suffix := by
  obtain ⟨p, t, node, -, heq, hcase⟩ := nextQueries_aim hwf view orig
  rw [heq] at hq
  obtain ⟨r, hr, hpath, ht⟩ := mem_queries_iff.mp hq
  rcases hcase with ⟨hbase, -⟩ | ⟨hinc, -⟩
  · have hview : view <+: p ++ t := by
      rw [hbase, nextBase]
      split
      · next hcov => exact hcov
      · exact prefix_refl view
    rcases ht with rfl | ⟨hnot, -⟩
    · rwa [hpath, append_assoc]
    · rw [hpath] at habove
      exact absurd ((prefix_append_right_inj p).mp (habove.trans hview)) hnot
  · have hout := (hinc r q.callback [] hr).2
    rw [append_nil, ← hpath] at hout
    exact absurd habove hout

/-! ### Reports with their OIDs -/

/-- What is reported for a search result, with its OID. -/
def OidSearchRes.report (res : OidSearchRes) : Option (Oid × UInt8 × List UInt8 × Int32) :=
  res.shown.readReport.map fun r => (res.oid, r)

/-- What is reported after a search. -/
def reported (search : AgentM σ OidSearchRes) (w : World Event σ) :
    Option (Oid × UInt8 × List UInt8 × Int32) :=
  (search w).1.bind OidSearchRes.report

/-- The report for a value. -/
def valueReport (val : LuaVal) (tag : UInt8) : Option (UInt8 × List UInt8 × Int32) :=
  Shown.readReport ⟨tag, 0, (luaCopy tag val).1, (luaCopy tag val).2⟩

theorem readReport_pokeBytes (old : List UInt8) (val : LuaVal) (tag : UInt8) :
    Shown.readReport ⟨tag, 0, (luaCopy tag val).1, pokeBytes old (luaCopy tag val).2⟩ =
      valueReport val tag := by
  obtain ⟨henc, htry⟩ := berValue_pokeBytes old tag val
  simp only [valueReport, Shown.readReport, henc, htry]

theorem valueReport_eq_some {tag' : UInt8} {value : List UInt8} {err : Int32}
    (h : valueReport val tag = some (tag', value, err)) : tag = tag' ∧ 0 = err := by
  obtain ⟨_, -, heq⟩ := map_eq_some_iff.mp h
  simp only [Prod.mk.injEq] at heq
  exact ⟨heq.1, heq.2.2⟩

theorem readReport_of_holds (h : res.var.Holds val tag) (herr : res.errStat = 0) :
    res.shown.readReport = valueReport val tag := by
  obtain ⟨htag, hlen, old, hvalue⟩ := h
  rw [OidSearchRes.shown, htag, hlen, hvalue, herr, readReport_pokeBytes]

theorem report_eq_some {o : Oid} {value : List UInt8} {err : Int32}
    (h : res.report = some (o, tag, value, err)) :
    res.oid = o ∧ res.var.tag = tag ∧ res.errStat = err ∧
      res.shown.readReport = some (tag, value, err) := by
  obtain ⟨r, hr, heq⟩ := map_eq_some_iff.mp h
  obtain ⟨hoid, rfl⟩ := Prod.mk.inj heq
  obtain ⟨_, -, hshown⟩ := map_eq_some_iff.mp hr
  simp only [Prod.mk.injEq] at hshown
  exact ⟨hoid, hshown.1, hshown.2.2, hr⟩

/-- **GET agrees with GETNEXT** for a principal in a state of the MIB: a value that GETNEXT reports
for any request is reported by GET of its OID. -/
def GetAgrees (ag : Agent σ) (sdg : SnmpDatagram) (st : σ) : Prop :=
  ∀ (oid : Oid) (next get : OidSearchRes) (log log' : List Event) (o : Oid) (tag : UInt8)
    (value : List UInt8), next.request = .getnext → get.request = .get →
    reported (mibGetnext ag sdg oid next) ⟨st, log⟩ = some (o, tag, value, 0) →
    asn1TagValid tag = true → reported (mibGet ag sdg o get) ⟨st, log'⟩ = some (o, tag, value, 0)

/-! ### GET of a covered instance -/

/-- What lies below an OID compares with an incomparable one as the OID does. -/
theorem oidCmp_append {u v : Oid} (hinc : Incomparable u v) (z : Oid) :
    oidCmp (v ++ z) u = oidCmp v u := by
  induction v generalizing u with
  | nil => exact absurd nil_prefix hinc.2
  | cons b v ih =>
    cases u with
    | nil => exact absurd nil_prefix hinc.1
    | cons a u =>
      rw [cons_append, oidCmp, oidCmp]
      by_cases heq : b - a = 0
      · obtain rfl : b = a := sub_eq_zero_iff_eq.mp heq
        have hinc' : Incomparable u v := ⟨fun h => hinc.1 (cons_prefix_cons.mpr ⟨rfl, h⟩),
          fun h => hinc.2 (cons_prefix_cons.mpr ⟨rfl, h⟩)⟩
        rw [if_pos heq, if_pos heq, ih hinc']
      · rw [if_neg heq, if_neg heq]

theorem searchExact_oid (hwf : ag.root.Wf d) (h : searchExact ag oid view ret w = (some r, w')) :
    r.oid = oid := by
  rw [searchExact] at h
  by_cases hreach : Reaches ag.root view oid
  · obtain ⟨p, callback, x, -, -, -, heq⟩ :=
      mibTreeSearch_of_reaches (h := ag.handlers) hwf hreach
    rw [heq, Traced.bind_assoc] at h
    obtain ⟨r₁, w₁, hsearch, hrest⟩ := Traced.bind_eq_some_iff.mp h
    rw [mibInstanceSearch_apply] at hsearch
    obtain ⟨htake, -⟩ := Prod.mk.inj hsearch
    obtain ⟨rfl, -⟩ := pure_eq_some_iff.mp hrest
    exact (takeReply_eq_some htake).2.1
  · obtain ⟨node, instId, tag, -, heq⟩ :=
      mibTreeSearch_of_not_reaches (h := ag.handlers) hwf hreach ret
    rw [heq] at h
    obtain ⟨rfl, -⟩ := pure_eq_some_iff.mp h
    rfl

theorem overViews_oid (hwf : ag.root.Wf d)
    (h : overViews (searchExact ag oid) (foundExact oid) oid views ret w = (some r, w')) :
    r.oid = oid := by
  induction views generalizing ret w with
  | nil =>
    obtain ⟨rfl, -⟩ := pure_eq_some_iff.mp h
    rfl
  | cons view views ih =>
    rw [overViews] at h
    obtain ⟨r₁, w₁, hsearch, hrest⟩ := bind_eq_some_iff.mp h
    by_cases hfound : foundExact oid view r₁ = true
    · rw [if_pos hfound] at hrest
      obtain ⟨rfl, -⟩ := pure_eq_some_iff.mp hrest
      exact searchExact_oid hwf hsearch
    · rw [if_neg hfound] at hrest
      exact ih hrest

/-- The report of GET, in terms of what is shown. -/
theorem reported_eq {search : AgentM σ OidSearchRes}
    (hoid : ∀ r w', search w = (some r, w') → r.oid = oid) :
    reported search w = (((search w).1.map OidSearchRes.shown).bind Shown.readReport).map
      fun r => (oid, r) := by
  rcases hrun : search w with ⟨_ | r, w'⟩
  · simp [reported, hrun]
  · simp [reported, hrun, OidSearchRes.report, hoid r w' hrun]

/-- A view of a sorted list does not come before those ahead of it. -/
theorem SmallSorted.not_neg {l r : List Oid} (h : SmallSorted (l ++ view :: r)) {u : Oid}
    (hu : u ∈ l) : ¬ oidCmp view u < 0 := by
  have hlt : u < view := (pairwise_append.mp h.2).2.2 u hu view mem_cons_self
  rw [oidCmp_neg_iff_lt (h.1 view (by simp)) (h.1 u (mem_append_left _ hu))]
  exact not_lt.mpr hlt.le

theorem reported_mibGet (hwf : ag.root.Wf d) {sdg : SnmpDatagram}
    (hp : principalViews ag.views sdg .read = some views) (hsorted : SmallSorted views)
    (hanti : Antichain views) {s : Oid} (hview : view ∈ views)
    (hreg : (p, callback) ∈ registered ag.root) (hs : s ≠ []) (hcov : view <+: p ++ s) {sub : Oid}
    (hreply : (ag.handlers.call callback .get s none st).1 = .ret 0 sub val tag)
    (hcopied : asn1TagCopied tag = true) (hget : ret.request = .get) (log : List Event) :
    reported (mibGet ag sdg (p ++ s) ret) ⟨st, log⟩ =
      (valueReport val tag).map fun r => (p ++ s, r) := by
  obtain ⟨l, r, rfl⟩ := append_of_mem hview
  have hvalid : asn1TagValid tag = true := asn1TagValid_of_copied hcopied
  obtain ⟨hl, hr⟩ := hanti.others
  have hl' : ∀ u ∈ l, ¬ u <+: p ++ s := fun u hu => (hl u hu).not_cover hcov
  have hr' : ∀ u ∈ r, ¬ u <+: p ++ s := fun u hu => (hr u hu).not_cover hcov
  have hahead : l.any (fun u => oidCmp (p ++ s) u < 0) = false := by
    rw [any_eq_false]
    intro u hu
    obtain ⟨z, hz⟩ := hcov
    rw [← hz, oidCmp_append (hl u hu)]
    simpa using hsorted.not_neg hu
  have hreq : (authenStep sdg ret).request = .get := by simpa using hget
  rw [mibGet_eq hanti.nodup hp, reported_eq fun r w' hrun => overViews_oid hwf hrun]
  congr 1
  have harg : argOf (if l = [] then authenStep sdg ret
      else missed (p ++ s) (authenStep sdg ret)) = none := by
    split <;> simp [argOf, missed, hget]
  obtain ⟨x, rest, rfl⟩ := exists_cons_of_ne_nil hs
  have hwalk := mibTreeWalk_registered hwf hreg (x :: rest)
  have hout : exactOutcome ag (p ++ x :: rest) .get none st = (tag, 0) := by
    simp only [exactOutcome, hwalk, hreply, replyOutcome]
  have hlost : ¬ lost (p ++ x :: rest) l r (tag, 0) = true := by
    simp [lost, hahead, isFound, hvalid]
  rw [overViews_lost ag hl' hr' hcov _ harg, hreq, hout, if_neg hlost]
  simp only [exactShown, hwalk, hreply, replyShown, hvalid, hcopied, ne_eq, reduceCtorEq,
    not_false_eq_true, and_self, if_true, bind_some, readReport_pokeBytes]

theorem reported_mibGet_uncovered (hwf : ag.root.Wf d) {sdg : SnmpDatagram}
    (hp : principalViews ag.views sdg .read = some views) (hnd : views.Nodup) (hne : views ≠ [])
    (huncov : ∀ u ∈ views, ¬ u <+: oid) (ret : OidSearchRes) (w : World Event σ) :
    reported (mibGet ag sdg oid ret) w = some (oid, asn1TagNoSuchObj, [], 0) := by
  have hall := overViews_missed ag huncov [] (authenStep sdg ret)
  rw [append_nil, if_neg hne] at hall
  have hmissed : ∃ r : OidSearchRes, overViews (searchExact ag oid) (foundExact oid) oid views
      (authenStep sdg ret) = pure r ∧ r.shown =
        ⟨asn1TagNoSuchObj, 0, (authenStep sdg ret).var.len, (authenStep sdg ret).var.value⟩ := by
    rw [hall]
    split
    · exact ⟨_, rfl, rfl⟩
    · exact ⟨_, rfl, rfl⟩
  obtain ⟨r, hrun, hshown⟩ := hmissed
  rw [mibGet_eq hnd hp, reported_eq fun r w' hrun => overViews_oid hwf hrun, hrun]
  simp [Traced.pure_apply, hshown, readReport_noSuchObj]

/-! ### Lua groups -/

/-- GETNEXT of a group comes back to the instance `s` of a table, with a value. -/
def LuaGroup.Repeats (g : LuaGroup σ) (st : σ) (s : List ℕ) (val : LuaVal) (tag : UInt8) : Prop :=
  ∃ tableNo entry varNo v idx, s = tableNo :: 1 :: varNo :: idx ∧
    g.objs.lookup tableNo = some (.table entry) ∧ entry.vars.lookup varNo = some v ∧
    entry.indexes.Stalls idx ∧ g.Reads ⟨v, [tableNo, 1, varNo], idx⟩ st val tag 0

/-- GETNEXT reports an instance above the view: a group comes back to it from requests in the view,
and its value can be copied and encoded. -/
def LeavesView (root : MibNode) (groups : Int → LuaGroup σ) (st : σ) (view : Oid) : Prop :=
  ∃ p callback s y val tag, (p, callback) ∈ registered root ∧ view = p ++ toOid s ++ y ∧ y ≠ [] ∧
    (p ++ toOid s).length ≤ asn1OidMaxLen ∧
    (mibGroupIndexesGenerate (groups callback).objs).isSome = true ∧
    (groups callback).Repeats st s val tag ∧ asn1TagCopied tag = true ∧
    (valueReport val tag).isSome = true

/-- The request is answered with an authentication error. -/
def AuthFails (sdg : SnmpDatagram) : Prop :=
  3 ≤ sdg.version ∧ sdg.hasFlag snmpSecurFlagAuth = true ∧ sdg.authErr.toUInt32.toInt32 ≠ 0

section Lua

variable {root : MibNode} {vs : ViewState} {groups : Int → LuaGroup σ} {sdg : SnmpDatagram}

theorem luaAgent_pureReads
    (hgroups : ∀ p callback, (p, callback) ∈ registered root → (groups callback).Pure) :
    PureReads (luaAgent root vs groups).handlers root := by
  intro p callback hreg request x st
  have hpure := hgroups p callback hreg
  cases request with
  | get => exact luaGet_state hpure _ st
  | getnext => exact luaGetnext_state hpure _ st
  | set => rfl

/-- An answer above the view comes from a group that comes back to it. -/
theorem leavesView_of_found (hwf : root.Wf d)
    (hgroups : ∀ p callback, (p, callback) ∈ registered root →
      (groups callback).Pure ∧ (groups callback).SubIds) {subOid : Oid}
    (hf : FoundBy (luaAgent root vs groups).handlers view (nextQueries root view orig) st q subOid
      val tag res) (hcov : ¬ view <+: res.oid) (hvalue : (valueReport val tag).isSome = true) :
    LeavesView root groups st view := by
  obtain ⟨y, hyne, hview⟩ := hf.above hcov
  have hreg := nextQueries_registered hwf hf.mem
  obtain ⟨hpure, hids⟩ := hgroups q.path q.callback hreg
  have hvalid : asn1TagValid tag = true := asn1TagValid_of_copied hf.copied
  have hreply : (luaGetnext (groups q.callback) (q.suffix.map UInt32.toNat) st).1 =
      .ret 0 subOid val tag := hf.reply
  obtain ⟨tab, b, s, t, hgen, hb, hinst, ht, rfl, hreads, -⟩ :=
    luaGetnext_found hpure hreply hvalid
  -- the request of the query goes beyond the instance `s`
  have hthrough := nextQueries_through hwf hf.mem
    (hview ▸ (prefix_append q.path (toOid s)).trans (prefix_append _ y))
  rw [hview, append_assoc, prefix_append_right_inj] at hthrough
  obtain ⟨z, hz⟩ := hthrough
  have hreq : q.suffix.map UInt32.toNat = s ++ (y ++ z).map UInt32.toNat := by
    rw [← hz, append_assoc, map_append,
      toNat_toOid (forall_mem_of_isInstance (hids tab hgen b hb) hinst)]
  rw [hreq] at hreply
  obtain ⟨tableNo, entry, varNo, idx, rfl, hobj, hstalls⟩ :=
    stalls_of_luaGetnext hpure hids hgen hb hinst (by simp [hyne]) hreply hvalid
  obtain ⟨v, hv, rfl⟩ : ∃ v, entry.vars.lookup varNo = some v ∧
      ⟨v, [tableNo, 1, varNo], idx⟩ = t := by
    cases idx with
    | nil => exact absurd rfl hstalls.ne_nil
    | cons i idx => simpa [nextTarget, hobj] using ht
  exact ⟨q.path, q.callback, _, y, val, tag, hreg, hview, hyne, hf.oid ▸ hf.fits,
    by rw [hgen]; rfl, ⟨tableNo, entry, varNo, v, idx, rfl, hobj, hv, hstalls, hreads⟩,
    hf.copied, hvalue⟩

/-- **Sufficiency**: GET agrees with GETNEXT when there are views and none is left. -/
theorem getAgrees_of_views (hroot : root.Reachable) (hvs : vs.Reachable Oid.Small)
    (hgroups : ∀ p callback, (p, callback) ∈ registered root →
      (groups callback).Pure ∧ (groups callback).SubIds)
    (hu : KnownUser (luaAgent root vs groups) sdg)
    (hcond : ∀ views, principalViews vs sdg .read = some views →
      (views = [] → AuthFails sdg) ∧ ∀ view ∈ views, ¬ LeavesView root groups st view) :
    GetAgrees (luaAgent root vs groups) sdg st := by
  intro oid next get log log' o tag value hnext hget hrep hvalid
  set ag := luaAgent root vs groups with hag
  have hwf : ag.root.Wf asn1OidMaxLen := hroot.wf
  obtain ⟨r, hrun, hreport⟩ := bind_eq_some_iff.mp hrep
  obtain ⟨rfl, rfl, herr, hshown⟩ := report_eq_some hreport
  cases hp : principalViews vs sdg .read with
  | none =>
    have hp' : principalViews ag.views sdg .read = none := hp
    simp only [mibGetnext, readAccess, hp'] at hrun
    obtain rfl := some.inj hrun
    cases herr
  | some views =>
    have hp' : principalViews ag.views sdg .read = some views := hp
    obtain ⟨hempty, hinside⟩ := hcond views hp
    have hanti := principalViews_of_lists hvs.antichain hu hp'
    have hsorted := principalViews_of_lists hvs.sorted hu hp'
    rw [mibGetnext_eq hanti.nodup hp'] at hrun
    -- without views there is an error, as authentication has failed
    by_cases hnil : views = []
    · obtain ⟨hver, hflag, hauth⟩ := hempty hnil
      subst hnil
      obtain rfl := some.inj hrun
      have hstep : (authenStep sdg next).errStat = sdg.authErr.toUInt32.toInt32 := by
        rw [authenStep, if_pos ⟨hver, hflag⟩]
      exact absurd (hstep.symm.trans herr) hauth
    · obtain ⟨view, hview, q, subOid, val, tag, hf⟩ := getnextViews_found hwf
        (luaAgent_pureReads fun p callback hreg => (hgroups p callback hreg).1)
        (by simpa using hnext) (Prod.ext hrun rfl) herr hvalid (fun h => absurd h hnil)
      have hreg := nextQueries_registered hwf hf.mem
      obtain ⟨hpure, hids⟩ := hgroups q.path q.callback hreg
      have hvalue : valueReport val tag = some (r.var.tag, value, 0) :=
        (readReport_of_holds hf.holds herr).symm.trans hshown
      -- the answer lies in the view, since no view is left
      have hcov : view <+: r.oid := by
        by_contra hcov
        exact hinside view hview
          (leavesView_of_found hwf hgroups hf hcov (by rw [hvalue]; rfl))
      obtain ⟨tab, b, s, t, hgen, hb, hinst, -, rfl, -, hlua⟩ :=
        luaGetnext_found hpure hf.reply (asn1TagValid_of_copied hf.copied)
      have hs : toOid s ≠ [] := by
        obtain ⟨no, rest, rfl, -⟩ :=
          ((mibGroupIndexesGenerate_spec hgen).1 b hb).head_of_instance hinst
        simp [toOid]
      -- so GET asks the same handler for the same instance
      have hgetreply : (ag.handlers.call q.callback .get (toOid s) none st).1 =
          .ret 0 (toOid s) val tag := by
        change (luaGet (groups q.callback) ((toOid s).map UInt32.toNat) st).1 = _
        rw [toNat_toOid (forall_mem_of_isInstance (hids tab hgen b hb) hinst), hlua]
      rw [hf.oid] at hcov ⊢
      rw [reported_mibGet hwf hp' hsorted hanti hview hreg hs hcov hgetreply hf.copied hget,
        hvalue]
      rfl

theorem overViews_over (hwf : ag.root.Wf d) {l : List Oid} (hl : ∀ u ∈ l, ¬ Entered u orig)
    (rest : List Oid) (ret : OidSearchRes) :
    overViews (searchNext ag orig) foundNext orig (l ++ rest) ret =
      overViews (searchNext ag orig) foundNext orig rest
        (if l = [] then ret else endOfMibView orig ret) := by
  induction l generalizing ret with
  | nil => rfl
  | cons u l ih =>
    obtain ⟨hu, hl'⟩ := forall_mem_cons.mp hl
    have hend : ¬ foundNext u (endOfMibView orig ret) = true := by
      simp [foundNext, endOfMibView]
    rw [cons_append, overViews, searchNext, mibTreeSearchNext_eq ag.handlers hwf,
      if_neg hu, pure_bind, if_neg hend, ih hl']
    by_cases hnil : l = [] <;> simp [hnil, endOfMibView]

/-- The only query for the OID of a view below an instance node. -/
theorem nextQueries_below (hwf : root.Wf d) {x : Oid} (hreg : (p, callback) ∈ registered root) :
    nextQueries root (p ++ x) (p ++ x) = [⟨p, callback, x⟩] := by
  simp [nextQueries, mibTreeWalk_registered hwf hreg x, registered, queries, query]

theorem searchNext_below (hwf : ag.root.Wf d) (hpure : PureReads ag.handlers ag.root) {x : Oid}
    (hreg : (p, callback) ∈ registered ag.root)
    (hprobe : ProbeTaken ag.handlers ag.root (p ++ x) w.state) {sub : Oid}
    (hreply : (ag.handlers.call callback .getnext x none w.state).1 = .ret 0 sub val tag)
    (hcopied : asn1TagCopied tag = true) (hfits : (p ++ sub).length ≤ asn1OidMaxLen)
    (hkept : oidCover (p ++ x) (p ++ sub) ≠ 0) (ret : OidSearchRes) :
    ∃ r w', searchNext ag (p ++ x) (p ++ x) ret w = (some r, w') ∧ r.oid = p ++ sub ∧
      r.errStat = 0 ∧ r.var.Holds val tag := by
  have hvalid : asn1TagValid tag = true := asn1TagValid_of_copied hcopied
  obtain ⟨-, r₁, w₁, -, hrun, -⟩ | ⟨hnot, -⟩ := viewProbe_cases hwf ag.handlers (p ++ x) ret w
  · obtain ⟨hst, hnext⟩ := viewProbe_pure hwf hpure hrun
    have hent : Entered (p ++ x) (p ++ x) := .inl (prefix_refl _)
    rw [searchNext, mibTreeSearchNext_eq ag.handlers hwf, if_pos hent,
      bind_eq_of_some hrun, nextQueries_below hwf hreg, runQueries]
    -- the reply to the only query is taken, whatever the probe has left
    have htake : ∀ ret : OidSearchRes, ret.request = .getnext →
        ∃ r, takeReply p ret (.ret 0 sub val tag) = some r ∧ r.instId = sub ∧ r.errStat = 0 ∧
          r.var.Holds val tag := by
      intro ret hreq
      simp only [takeReply, hvalid, hcopied, hreq, and_self, if_true, reduceCtorEq, if_false]
      exact ⟨_, rfl, rfl, rfl, rfl, rfl, _, rfl⟩
    set ret₁ : OidSearchRes := { r₁ with
      oid := if p ++ x <+: p ++ x then p ++ x else p ++ x, instId := x, callback := callback }
    obtain ⟨r₂, htake₂, hinst, herr, hholds⟩ := htake ret₁ hnext
    have hfst : (mibInstanceSearch ag.handlers p ret₁ w₁).1 = some r₂ := by
      have hreq₁ : ret₁.request = .getnext := hnext
      rw [mibInstanceSearch_apply, ← htake₂, ← hreply, hreq₁, hst]
      rfl
    have hsearch : mibInstanceSearch ag.handlers p ret₁ w₁ =
        (some r₂, (mibInstanceSearch ag.handlers p ret₁ w₁).2) := Prod.ext hfst rfl
    have hvalid₂ : asn1TagValid r₂.var.tag = true := by rw [hholds.1, hvalid]
    have hshort : ¬ asn1OidMaxLen < (p ++ r₂.instId).length := by
      rw [hinst]
      exact not_lt.mpr hfits
    have hkept₂ : ¬ oidCover (p ++ x) (p ++ r₂.instId) = 0 := by rwa [hinst]
    rw [bind_eq_of_some hsearch, if_pos hvalid₂]
    dsimp only
    rw [if_neg hshort, if_neg hkept₂]
    exact ⟨_, _, rfl, by rw [hinst], herr, hholds⟩
  · exact absurd hprobe hnot

theorem getTarget_table {objs : LuaObjects} (tab : List Block) {tableNo varNo : ℕ}
    {entry : LuaEntry} {v : LuaVariable} (hobj : objs.lookup tableNo = some (.table entry))
    (hvar : entry.vars.lookup varNo = some v) (inst : List ℕ) :
    (∃ tag, getTarget objs tab (tableNo :: 1 :: varNo :: inst) = .error tag ∧
        asn1TagValid tag = false) ∨
      getTarget objs tab (tableNo :: 1 :: varNo :: inst) =
        .ok ⟨v, [tableNo, 1, varNo], inst⟩ := by
  have hobject : asn1TagValid asn1TagNoSuchObj = false := rfl
  have hinstance : asn1TagValid asn1TagNoSuchInst = false := rfl
  rcases heff : effectiveObjectIndex tab tableNo with _ | _ | _ | _ | _ | n
  all_goals simp only [getTarget, heff, hobj, hvar]
  pick_goal 6
  · by_cases haccess : v.access = .una
    · exact .inl ⟨_, if_pos haccess, hobject⟩
    · by_cases hnil : inst = []
      · exact .inl ⟨asn1TagNoSuchInst, by simp [haccess, hnil], hinstance⟩
      · exact .inr (by simp [haccess, hnil])
  all_goals exact .inl ⟨_, rfl, hobject⟩

theorem luaGet_copied {g : LuaGroup σ} {tableNo varNo : ℕ} {entry : LuaEntry} {v : LuaVariable}
    (hobj : g.objs.lookup tableNo = some (.table entry)) (hvar : entry.vars.lookup varNo = some v)
    (htag : v.tag = some tag) (hcopied : asn1TagCopied tag = true) (inst : List ℕ) (st : σ) :
    (luaGet g (tableNo :: 1 :: varNo :: inst) st).1.Copied := by
  have hinvalid : ∀ {tag' : UInt8}, asn1TagValid tag' = false →
      (Reply.ret 0 (toOid (tableNo :: 1 :: varNo :: inst)) .nil tag').Copied := by
    intro tag' hno _ hyes
    rw [hno] at hyes
    cases hyes
  cases hgen : mibGroupIndexesGenerate g.objs with
  | none => simp only [luaGet, hgen, Reply.Copied]
  | some tab =>
    rcases getTarget_table tab hobj hvar inst with ⟨tag', ht, hno⟩ | ht
    · simp only [luaGet, hgen, ht]
      exact hinvalid hno
    · rcases hget : g.getF [tableNo, 1, varNo] inst st with ⟨_ | ⟨val, e⟩, st'⟩
      · simp only [luaGet, hgen, ht, hget, Reply.Copied]
      · have hreply : (valueReply (tableNo :: 1 :: varNo :: inst) val tag e).Copied := by
          rw [valueReply]
          split
          · exact fun _ _ => hcopied
          · trivial
        cases val with
        | nil =>
          simp only [luaGet, hgen, ht, hget]
          exact hinvalid rfl
        | num n | str s | tab es => simpa only [luaGet, hgen, ht, hget, htag] using hreply

/-- No view of an antichain covers an OID that lies above one of them. -/
theorem Antichain.uncovered (h : Antichain views) {o : Oid} (hview : view ∈ views)
    (habove : o <+: view) (hne : o ≠ view) : ∀ u ∈ views, ¬ u <+: o := by
  intro u hu hcov
  by_cases heq : u = view
  · subst heq
    exact hne (habove.eq_of_length_le hcov.length_le)
  · exact (h.forall hu hview heq).1 (hcov.trans habove)

/-- GETNEXT leaves a view where the group comes back to an instance above it. -/
theorem reported_mibGetnext_leaving (hroot : root.Reachable) (hvs : vs.Reachable Oid.Small)
    (hgroups : ∀ p callback, (p, callback) ∈ registered root →
      (groups callback).Pure ∧ (groups callback).SubIds)
    (hu : KnownUser (luaAgent root vs groups) sdg) (hp : principalViews vs sdg .read = some views)
    (hview : view ∈ views) (hleave : LeavesView root groups st view) (ret : OidSearchRes)
    (log : List Event) :
    ∃ o tag value, reported (mibGetnext (luaAgent root vs groups) sdg view ret) ⟨st, log⟩ =
      some (o, tag, value, 0) ∧ asn1TagValid tag = true ∧ ∀ u ∈ views, ¬ u <+: o := by
  obtain ⟨p, callback, s, y, val, tag, hreg, rfl, hyne, hfits, hgen, hrepeats, hcopied, hvalue⟩ :=
    hleave
  obtain ⟨tableNo, entry, varNo, v, idx, hs, hobj, hvar, hstalls, hreads⟩ := hrepeats
  obtain ⟨tab, hgen⟩ := isSome_iff_exists.mp hgen
  obtain ⟨⟨tag', value, err⟩, hreport⟩ := isSome_iff_exists.mp hvalue
  set ag := luaAgent root vs groups with hag
  have hwf : ag.root.Wf asn1OidMaxLen := hroot.wf
  have hp' : principalViews ag.views sdg .read = some views := hp
  have hanti := principalViews_of_lists hvs.antichain hu hp'
  have hsorted := principalViews_of_lists hvs.sorted hu hp'
  obtain ⟨hpure, hids⟩ := hgroups p callback hreg
  have hreads' : PureReads ag.handlers ag.root :=
    luaAgent_pureReads fun p callback hreg => (hgroups p callback hreg).1
  -- the group comes back to `s`
  obtain ⟨hlua, b, hb, hinst⟩ := luaGetnext_of_stalls hpure hgen hobj hvar hstalls
    (show y.map UInt32.toNat ≠ [] by simpa using hyne) hreads
  rw [← hs] at hlua hinst
  have hnat : (toOid s ++ y).map UInt32.toNat =
      tableNo :: 1 :: varNo :: (idx ++ y.map UInt32.toNat) := by
    rw [map_append, toNat_toOid (forall_mem_of_isInstance (hids tab hgen b hb) hinst), hs]
    rfl
  have hreply : ag.handlers.call callback .getnext (toOid s ++ y) none st =
      (.ret 0 (toOid s) val tag, st) := by
    change luaGetnext (groups callback) ((toOid s ++ y).map UInt32.toNat) st = _
    rw [hnat, hlua]
  have hprobe : ProbeTaken ag.handlers ag.root (p ++ (toOid s ++ y)) st := by
    refine probeTaken_below hwf hreg ?_
    change (luaGet (groups callback) ((toOid s ++ y).map UInt32.toNat) st).1.Copied
    rw [hnat]
    exact luaGet_copied hobj hvar hreads.hasTag hcopied _ st
  have hbelow : p ++ toOid s <+: p ++ toOid s ++ y := prefix_append _ y
  have huncov := hanti.uncovered hview hbelow (by simpa using hyne)
  rw [append_assoc] at hview hbelow ⊢
  set view := p ++ (toOid s ++ y) with hviewdef
  have hkept : oidCover view (p ++ toOid s) ≠ 0 := fun h =>
    ((oidCover_eq_zero_iff _ _).mp h).2 hbelow
  -- the views before this one are over
  obtain ⟨l, r, rfl⟩ := append_of_mem hview
  have hover : ∀ u ∈ l, ¬ Entered u view := fun u hu =>
    not_or.mpr ⟨(hanti.others.1 u hu).1, hsorted.not_neg hu⟩
  refine ⟨p ++ toOid s, tag, value, ?_, asn1TagValid_of_copied hcopied, huncov⟩
  set ret₁ := if l = [] then authenStep sdg ret else endOfMibView view (authenStep sdg ret)
  obtain ⟨res, w', hsearch, hoid, herr, hholds⟩ := searchNext_below (w := ⟨st, log⟩) hwf hreads' hreg
    hprobe (by rw [hreply]) hcopied hfits hkept ret₁
  have hfound : foundNext view res = true := by
    simpa [foundNext, hholds.1] using ne_endOfMibView_of_copied hcopied
  obtain ⟨rfl, rfl⟩ := valueReport_eq_some hreport
  have hres : res.report = some (p ++ toOid s, tag, value, 0) := by
    rw [OidSearchRes.report, readReport_of_holds hholds herr, hreport, hoid]
    rfl
  rw [mibGetnext_eq hanti.nodup hp', overViews_over hwf hover, overViews, reported,
    bind_eq_of_some hsearch, if_pos hfound]
  exact hres

/-- A principal without views gets back what it sent, unless its request is not authentic. -/
theorem not_getAgrees_of_no_views (hp : principalViews ag.views sdg .read = some [])
    (hauth : ¬ AuthFails sdg) (st : σ) : ¬ GetAgrees ag sdg st := by
  intro hagree
  have herr : ∀ ret : OidSearchRes, ret.errStat = 0 → (authenStep sdg ret).errStat = 0 := by
    intro ret hret
    rw [authenStep]
    split
    · next hflag =>
        by_contra hne
        exact hauth ⟨hflag.1, hflag.2, hne⟩
    · exact hret
  set sent : OidSearchRes := { request := .getnext, var := { tag := asn1TagInt } } with hsent
  obtain ⟨value, hvalue⟩ : ∃ value,
      reported (mibGetnext ag sdg [] sent) ⟨st, []⟩ = some ([], asn1TagInt, value, 0) := by
    rw [reported, mibGetnext_no_views hp]
    have hshown : OidSearchRes.shown { authenStep sdg sent with oid := [] } =
        ⟨asn1TagInt, 0, sent.var.len, sent.var.value⟩ := by
      simp [OidSearchRes.shown, herr, hsent]
    exact ⟨_, by rw [bind_some, OidSearchRes.report, hshown]; rfl⟩
  have hget := hagree [] sent { request := .get } [] [] [] asn1TagInt value rfl rfl hvalue rfl
  rw [reported, mibGet_eq nodup_nil hp] at hget
  obtain ⟨-, htag, -⟩ := report_eq_some hget
  rw [authenStep_var] at htag
  cases htag

/-- **When GET agrees with GETNEXT.** It does so for a principal with sub-identifiers below `2 ^ 31`,
in a reachable tree of Lua groups with pure functions `get_f`, if and only if the principal has a
read view or its request is not authentic, and GETNEXT leaves none of its views. -/
theorem getnext_get_agree_iff (hroot : root.Reachable) (hvs : vs.Reachable Oid.Small)
    (hgroups : ∀ p callback, (p, callback) ∈ registered root →
      (groups callback).Pure ∧ (groups callback).SubIds)
    (hu : KnownUser (luaAgent root vs groups) sdg) (st : σ) :
    GetAgrees (luaAgent root vs groups) sdg st ↔
      ∀ views, principalViews vs sdg .read = some views →
        (views = [] → AuthFails sdg) ∧ ∀ view ∈ views, ¬ LeavesView root groups st view := by
  refine ⟨fun hagree views hp => ⟨?_, ?_⟩, getAgrees_of_views hroot hvs hgroups hu⟩
  · rintro rfl
    by_contra hauth
    exact not_getAgrees_of_no_views hp hauth st hagree
  · intro view hview hleave
    have hwf : (luaAgent root vs groups).root.Wf asn1OidMaxLen := hroot.wf
    have hp' : principalViews (luaAgent root vs groups).views sdg .read = some views := hp
    have hnd := (principalViews_of_lists hvs.antichain hu hp').nodup
    obtain ⟨o, tag, value, hrep, hvalid, huncov⟩ := reported_mibGetnext_leaving hroot hvs hgroups hu
      hp hview hleave { request := .getnext } []
    have hget := hagree view { request := .getnext } { request := .get } [] [] o tag value rfl rfl
      hrep hvalid
    rw [reported_mibGet_uncovered hwf hp' hnd (ne_nil_of_mem hview) huncov] at hget
    simp only [some.injEq, Prod.mk.injEq] at hget
    rw [← hget.2.1] at hvalid
    cases hvalid

end Lua

/-! ### A view below an instance -/

/-- A community with read access to everything below `view`. -/
def oneReadView (view : Oid) : ViewState := mibCommunityReg {} view [0x70] .read

/-- GETNEXT reports the integer of a group, and GET agrees with it. -/
theorem oneScalarGroup_agrees :
    let ag := luaAgent oneScalarRoot (oneReadView [1]) fun _ => oneScalarGroup
    let sdg : SnmpDatagram := { contextName := [0x70] }
    reported (mibGetnext ag sdg [1] { request := .getnext }) ⟨42, []⟩ =
        some ([1, 3, 1, 0], asn1TagInt, [42], 0) ∧
      GetAgrees ag sdg 42 := by
  have hgen : mibGroupIndexesGenerate oneScalar = some [scalarIndexes [1]] := by decide +kernel
  have hreg : registered oneScalarRoot = [([1, 3], 0)] := by decide +kernel
  have hids : oneScalarGroup.SubIds := by
    intro tab htab
    obtain rfl := some.inj (hgen.symm.trans htab)
    simp [scalarIndexes, Index.ids]
  have hroot : oneScalarRoot.Reachable := .reg [1, 3] 0 .init
  refine ⟨by decide +kernel, (getnext_get_agree_iff hroot
    (.communityReg [1] [0x70] .read (by simp [Oid.Small]) .init)
    (fun _ _ _ => ⟨fun _ _ _ => rfl, hids⟩) (by simp [KnownUser]) 42).mpr ?_⟩
  intro views hviews
  obtain rfl : [[1]] = views := some.inj hviews
  refine ⟨by simp, ?_⟩
  rintro view hview ⟨p, callback, s, y, val, tag, hp, heq, -⟩
  obtain ⟨rfl, -⟩ : p = [1, 3] ∧ callback = 0 := by simpa [hreg] using hp
  obtain rfl := mem_singleton.mp hview
  cases heq

/-- A table whose first index is there twice, with a single second one. -/
def repeatedGroup : LuaGroup Unit where
  objs := AList.singleton 1
    (.table ⟨AList.singleton 1 (.const asn1TagInt), .cascade [[5, 5], [1]]⟩)
  getF _ _ st := (some (.num 7, none), st)
  setF _ _ _ st := (none, st)

/-- **GET does not agree with GETNEXT** at a view below an instance of the table: GETNEXT reports
that instance, and GET does not find it. -/
theorem repeatedGroup_disagrees :
    let vs := oneReadView [1, 3, 1, 1, 1, 5, 1, 7]
    let ag := luaAgent oneScalarRoot vs fun _ => repeatedGroup
    let sdg : SnmpDatagram := { contextName := [0x70] }
    vs.Reachable Oid.Small ∧ repeatedGroup.Pure ∧
      reported (mibGetnext ag sdg [1, 3, 1, 1, 1, 5, 1, 7] { request := .getnext }) ⟨(), []⟩ =
        some ([1, 3, 1, 1, 1, 5, 1], asn1TagInt, [7], 0) ∧
      reported (mibGet ag sdg [1, 3, 1, 1, 1, 5, 1] { request := .get }) ⟨(), []⟩ =
        some ([1, 3, 1, 1, 1, 5, 1], asn1TagNoSuchObj, [], 0) := by
  refine ⟨.communityReg _ _ _ (by simp [Oid.Small]) .init, fun _ _ _ => rfl, ?_⟩
  decide +kernel

end SmithSnmp
