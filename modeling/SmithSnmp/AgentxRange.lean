import SmithSnmp.AgentxProc
import SmithSnmp.InView

/-!
# Search Ranges of AgentX

A search range asks for the least instance behind its start, or at its start, that is not behind its
end. `mib_getnext` of the sub-agent searches behind the start and compares the answer with the end
then. An end without sub-identifiers bounds nothing in a PDU, but every answer is behind it here.

When the start is part of the range it is searched first, with a request that still says GETNEXT. So
the handler returns the instance behind the start, which is written over that of the start, and the
length of the OID stays. This answer is not compared with the end. When there is no instance behind
the start in its node, the start itself is passed over.

## Main results

* `xMibSearchNext_spec`: what the search behind the start returns.
* `xMibGetnext_of_hit` and `xMibGetnext_of_no_hit`: the two ways that `mib_getnext` goes.
* `xMibGetnext_exact_iff`: when the answer to a search range is exact.
-/

namespace SmithSnmp

open List Lib MibNode Traced

variable {σ : Type}

variable {r ret : OidSearchRes} {x o : Oid}

/-! ### Ranges -/

namespace XSearchRange

/-- The OID is not before the start of the range. -/
def Begun (sr : XSearchRange) (o : Oid) : Prop :=
  if sr.startInclude ≠ 0 then sr.start ≤ o else sr.start < o

/-- The OID is not behind the end of the range. An empty end bounds nothing. -/
def Within (sr : XSearchRange) (o : Oid) : Prop :=
  sr.stop = [] ∨ if sr.endInclude ≠ 0 then o ≤ sr.stop else o < sr.stop

/-- A range whose sub-identifiers are below `2 ^ 31`. -/
structure Small (sr : XSearchRange) : Prop where
  start : Oid.Small sr.start
  stop : Oid.Small sr.stop

variable {sr : XSearchRange} {o o' : Oid}

theorem Begun.le (h : sr.Begun o) : sr.start ≤ o := by
  rw [Begun] at h
  split at h
  · exact h
  · exact h.le

theorem begun_of_lt (h : sr.start < o) : sr.Begun o := by
  rw [Begun]
  split
  · exact h.le
  · exact h

theorem Within.mono (h : sr.Within o) (hle : o' ≤ o) : sr.Within o' := by
  rcases h with hnil | h
  · exact .inl hnil
  · refine .inr ?_
    split at h
    · next hincl => rw [if_pos hincl]; exact hle.trans h
    · next hincl => rw [if_neg hincl]; exact hle.trans_lt h

end XSearchRange

/-- The instances under `1.3.6.1` in a search range. -/
def rangeSet (root : MibNode) (I : Int → Set Oid) (sr : XSearchRange) : Set Oid :=
  {o | o ∈ Instances root I ∧ agentxDummyView <+: o ∧ sr.Begun o ∧ sr.Within o}

/-- The instances that the search behind the start looks at: there has to be an end, and `1.3.6.1`
itself is passed over. -/
def soughtSet (root : MibNode) (I : Int → Set Oid) (sr : XSearchRange) : Set Oid :=
  {o | o ∈ Instances root I ∧ agentxDummyView <+: o ∧ sr.start < o ∧ o ≠ agentxDummyView ∧
    sr.stop ≠ [] ∧ sr.Within o}

theorem small_agentxDummyView : Oid.Small agentxDummyView := by
  simp [Oid.Small, agentxDummyView]

/-- Below `2 ^ 31` the sign of `oid_cmp` is that of the lexicographic order. -/
theorem oidCmp_pos_iff_lt {a b : Oid} (ha : Oid.Small a) (hb : Oid.Small b) :
    0 < oidCmp a b ↔ b < a := by
  rw [← not_le, ← not_le, le_iff_lt_or_eq, le_iff_lt_or_eq, oidCmp_neg_iff_lt ha hb,
    oidCmp_eq_zero_iff]

/-- The check of the end, for an answer that is not empty. -/
theorem exceedsEnd_iff {sr : XSearchRange} (hsr : sr.Small) (hr : Oid.Small r.oid)
    (hne : r.oid ≠ []) : exceedsEnd sr r = true ↔ ¬ (sr.stop ≠ [] ∧ sr.Within r.oid) := by
  have hcheck : exceedsEnd sr r = true ↔
      ¬ if sr.endInclude ≠ 0 then r.oid ≤ sr.stop else r.oid < sr.stop := by
    have hnonneg : 0 ≤ oidCmp r.oid sr.stop ↔ ¬ r.oid < sr.stop := by
      rw [← oidCmp_neg_iff_lt hr hsr.stop, not_lt]
    by_cases hincl : sr.endInclude = 0
    · simp [exceedsEnd, hincl, hnonneg]
    · simp [exceedsEnd, hincl, oidCmp_pos_iff_lt hr hsr.stop]
  rw [hcheck]
  by_cases hstop : sr.stop = []
  · -- nothing but the empty OID is before an empty end
    have hnil : ([] : Oid) < r.oid := lt_of_prefix_of_ne nil_prefix (Ne.symm hne)
    refine iff_of_true ?_ fun h => h.1 hstop
    rw [hstop]
    split
    · exact not_le.mpr hnil
    · exact not_lt.mpr hnil.le
  · rw [XSearchRange.Within, or_iff_right hstop, and_iff_right hstop]

/-! ### The search behind the start -/

/-- The outcome of a search is one over more instances as well, if those that it misses are none:
whatever it may miss is before all that it finds. -/
theorem NextOutcome.iff_subset {N R : Set Oid} {Ans : Oid → LuaVal → UInt8 → Prop} {orig : Oid}
    (h : NextOutcome N Ans orig r) (hsub : N ⊆ R) (hbefore : ∀ o ∈ R, o ∉ N → ∀ n ∈ N, o ≤ n) :
    NextOutcome R Ans orig r ↔ R ⊆ N := by
  constructor
  · rintro ⟨-, -, hR⟩ o hoR
    by_contra hoN
    obtain ⟨-, -, ⟨val, tag, hleast, -, hcop, hholds⟩ | ⟨hempty, -, htag⟩⟩ := h
    · rcases hR with ⟨-, -, hleastR, -⟩ | ⟨-, -, htagR⟩
      · have heq : o = r.oid := le_antisymm (hbefore o hoR hoN _ hleast.1) (hleastR.2 hoR)
        exact hoN (heq ▸ hleast.1)
      · exact ne_endOfMibView_of_copied hcop (hholds.1.symm.trans htagR)
    · rcases hR with ⟨val, tag, -, -, hcop, hholds⟩ | ⟨hemptyR, -, -⟩
      · exact ne_endOfMibView_of_copied hcop (hholds.1.symm.trans htag)
      · exact hemptyR.subset hoR
  · intro hRN
    rwa [← Set.Subset.antisymm hsub hRN]

section Search

variable {h : Handlers σ} {root : MibNode} {d : ℕ} {I : Int → Set Oid}
  {Ans : Int → Oid → LuaVal → UInt8 → Prop} {sr : XSearchRange}

/-- **The search behind the start** returns the least of the instances that it looks at. -/
theorem xMibSearchNext_spec (hwf : root.Wf d) (henum : Enumerates h root I Ans)
    (hinst : ∀ o ∈ Instances root I, Oid.Small o) (hsr : sr.Small) (hret : ret.request = .getnext)
    (w : World Event σ)
    (hprobe : Entered agentxDummyView sr.start →
      ∃ r w', viewProbe h root agentxDummyView ret w = (some r, w')) :
    ∃ r w', xMibSearchNext h root sr ret w = (some r, w') ∧
      NextOutcome (soughtSet root I sr) (treeAns root Ans) sr.start r := by
  obtain ⟨r, w', hrun, hreq, herr, hout⟩ :=
    mibTreeSearchNext_spec hwf henum agentxDummyView sr.start ret hret w hprobe
  rw [nextSet_small small_agentxDummyView hsr.start] at hout
  rw [xMibSearchNext, bind_eq_of_some hrun]
  rcases hout with ⟨val, tag, hleast, hans, hcop, hholds⟩ | ⟨hempty, hoid, htag⟩
  · obtain ⟨⟨hin, hcov, hlt, hne⟩, hlow⟩ := hleast
    have hvalid : invalidQuery r = false := by
      simp [invalidQuery, herr, hholds.1, asn1TagValid_of_copied hcop]
    have hnil : r.oid ≠ [] := by
      intro hnil
      rw [hnil] at hcov
      exact absurd hcov (by decide)
    have hiff := exceedsEnd_iff hsr (hinst _ hin) hnil
    by_cases hexceeds : exceedsEnd sr r = true
    · rw [if_pos (by rw [hvalid, hexceeds]; rfl)]
      refine ⟨_, _, rfl, hreq, rfl, .inr ⟨?_, rfl, rfl⟩⟩
      -- what comes behind the answer is behind the end, too
      refine Set.eq_empty_of_forall_notMem ?_
      rintro o ⟨hin', hcov', hlt', hne', hstop, hwithin⟩
      exact hiff.mp hexceeds ⟨hstop, hwithin.mono (hlow ⟨hin', hcov', hlt', hne'⟩)⟩
    · have hends := not_not.mp fun hnot => hexceeds (hiff.mpr hnot)
      rw [Bool.not_eq_true] at hexceeds
      rw [if_neg (by rw [hvalid, hexceeds]; decide)]
      refine ⟨_, _, rfl, hreq, herr, .inl ⟨val, tag, ⟨?_, ?_⟩, hans, hcop, hholds⟩⟩
      · exact ⟨hin, hcov, hlt, hne, hends⟩
      · rintro o ⟨hin', hcov', hlt', hne', -⟩
        exact hlow ⟨hin', hcov', hlt', hne'⟩
  · have hend : asn1TagValid asn1TagEndOfMibView = false := by decide
    have hinvalid : invalidQuery r = true := by simp [invalidQuery, htag, hend]
    rw [if_neg (by simp [hinvalid])]
    refine ⟨_, _, rfl, hreq, herr, .inr ⟨?_, hoid, htag⟩⟩
    refine Set.eq_empty_of_forall_notMem ?_
    rintro o ⟨hin', hcov', hlt', hne', -⟩
    exact hempty.subset ⟨hin', hcov', hlt', hne'⟩

theorem xMibSearchNext_of_no_probe (hwf : root.Wf d) {w : World Event σ}
    (hent : Entered agentxDummyView sr.start)
    (hprobe : ¬ ∃ r w', viewProbe h root agentxDummyView ret w = (some r, w')) :
    ¬ ∃ r w', xMibSearchNext h root sr ret w = (some r, w') := by
  rintro ⟨r, w', hrun⟩
  obtain ⟨r₁, w₁, hnext, -⟩ := bind_eq_some_iff.mp hrun
  rw [mibTreeSearchNext_eq h hwf, if_pos hent] at hnext
  obtain ⟨r₂, w₂, hview, -⟩ := bind_eq_some_iff.mp hnext
  exact hprobe ⟨r₂, w₂, hview⟩

/-- What the search behind the start looks at is in the range. -/
theorem soughtSet_subset (root : MibNode) (I : Int → Set Oid) (sr : XSearchRange) :
    soughtSet root I sr ⊆ rangeSet root I sr := by
  rintro o ⟨hin, hcov, hlt, -, -, hwithin⟩
  exact ⟨hin, hcov, XSearchRange.begun_of_lt hlt, hwithin⟩

/-- The search behind the start looks at the whole range. -/
def RangeSought (root : MibNode) (I : Int → Set Oid) (sr : XSearchRange) : Prop :=
  ∀ o ∈ rangeSet root I sr, o ≠ sr.start ∧ o ≠ agentxDummyView ∧ sr.stop ≠ []

theorem rangeSought_iff : RangeSought root I sr ↔ rangeSet root I sr ⊆ soughtSet root I sr := by
  constructor
  · rintro hsought o ⟨hin, hcov, hbegun, hwithin⟩
    obtain ⟨hstart, hview, hstop⟩ := hsought o ⟨hin, hcov, hbegun, hwithin⟩
    exact ⟨hin, hcov, lt_of_le_of_ne hbegun.le (Ne.symm hstart), hview, hstop, hwithin⟩
  · intro hsub o ho
    obtain ⟨-, -, hlt, hview, hstop, -⟩ := hsub ho
    exact ⟨hlt.ne', hview, hstop⟩

/-- The answer of the search behind the start is exact when it looks at the whole range. -/
theorem nextOutcome_range_iff
    (hout : NextOutcome (soughtSet root I sr) (treeAns root Ans) sr.start r) :
    NextOutcome (rangeSet root I sr) (treeAns root Ans) sr.start r ↔ RangeSought root I sr := by
  rw [rangeSought_iff]
  refine hout.iff_subset (soughtSet_subset root I sr) ?_
  rintro o ⟨hin, hcov, hbegun, hwithin⟩ hnot n ⟨-, hcov', hlt, -, hstop, -⟩
  by_cases hview : o = agentxDummyView
  · rw [hview]
    exact le_of_extends hcov'
  · refine le_trans (not_lt.mp fun hlt' => hnot ?_) hlt.le
    exact ⟨hin, hcov, hlt', hview, hstop, hwithin⟩

end Search

/-- The view can be probed exactly when no assertion fails on the way. -/
theorem viewProbe_yields_iff {root : MibNode} {d : ℕ} (hwf : root.Wf d) (h : Handlers σ)
    (view : Oid) (ret : OidSearchRes) (w : World Event σ) :
    (∃ r w', viewProbe h root view ret w = (some r, w')) ↔ ProbeTaken h root view w.state := by
  rcases viewProbe_cases hwf h view ret w with ⟨htaken, r, w', -, hrun, -⟩ | ⟨hnot, hnone⟩
  · exact iff_of_true ⟨r, w', hrun⟩ htaken
  · refine iff_of_false ?_ hnot
    rintro ⟨r, w', hrun⟩
    rw [hrun] at hnone
    cases hnone

/-! ### The search at the start -/

/-- The start of the range is part of it, and there is an instance behind it in its node. -/
structure StartHit (root : MibNode) (I : Int → Set Oid) (sr : XSearchRange) (p : Oid)
    (callback : Int) (x s : Oid) : Prop where
  included : sr.startInclude ≠ 0
  view : agentxDummyView <+: sr.start
  node : (p, callback) ∈ registered root
  start : sr.start = p ++ x
  nonempty : x ≠ []
  next : IsLeast {y | y ∈ I callback ∧ x < y} s

/-- The state of the MIB behind the search at the start. -/
def startState (h : Handlers σ) (root : MibNode) (sr : XSearchRange) (st : σ) : σ :=
  if sr.startInclude ≠ 0 ∧ agentxDummyView <+: sr.start then
    match mibTreeWalk sr.start root with
    | (.inst callback, x :: rest) => (h.call callback .getnext (x :: rest) none st).2
    | _ => st
  else st

/-- The variable into which the value of the instance `o` was copied. -/
def Variable.copied (var : Variable) (o : Oid) (val : LuaVal) (tag : UInt8) : Variable where
  tag := tag
  len := (luaCopy tag val).1
  value := pokeBytes var.value (luaCopy tag val).2
  src := some o

theorem takeReply_of_miss (path : Oid) (ret : OidSearchRes) {reply : Reply} (hmiss : reply.IsMiss) :
    ∃ r, takeReply path ret reply = some r ∧ r.request = ret.request ∧ invalidQuery r = true := by
  cases reply with
  | fail =>
    have hobj : asn1TagValid asn1TagNoSuchObj = false := by decide
    exact ⟨_, rfl, rfl, by simp [invalidQuery, hobj]⟩
  | ret errStat sub val tag =>
    have htag : asn1TagValid tag = false := hmiss
    refine ⟨_, if_neg (by simp [htag]), rfl, ?_⟩
    simp [invalidQuery, htag]

section Start

variable {h : Handlers σ} {root : MibNode} {d : ℕ} {I : Int → Set Oid}
  {Ans : Int → Oid → LuaVal → UInt8 → Prop} {sr : XSearchRange} {ret : OidSearchRes}

/-- The search at a start below an instance node: the handler is asked for the next instance. -/
theorem startSearch_apply (hwf : root.Wf d) {p : Oid} {callback : Int}
    (hview : agentxDummyView <+: p ++ x) (hreg : (p, callback) ∈ registered root) (hne : x ≠ [])
    (hret : ret.request = .getnext) (w : World Event σ) :
    ∃ log, (Prod.snd <$> mibTreeSearch h root agentxDummyView (p ++ x) ret) w =
      (takeReply p { ret with oid := p ++ x, errStat := 0, instId := x, callback := callback }
          (h.call callback .getnext x none w.state).1,
        ⟨(h.call callback .getnext x none w.state).2, log⟩) := by
  have hreach : Reaches root agentxDummyView (p ++ x) :=
    ⟨hview, p, callback, hreg, prefix_append p x, fun heq =>
      hne (self_eq_append_right.mp heq)⟩
  obtain ⟨p', callback', x', heq, -, hreg', hsearch⟩ := mibTreeSearch_of_reaches (h := h) hwf hreach
  obtain ⟨rfl, rfl, rfl⟩ := registered_split hwf hreg hreg' heq
  refine ⟨w.log ++ [.call .getnext callback (p ++ x)], ?_⟩
  rw [map_eq_bind, hsearch, bind_assoc]
  simp only [pure_bind]
  rw [bind_pure, mibInstanceSearch_apply]
  simp only [hret]
  rfl

/-- Without a node above the start, no handler is asked at it. -/
theorem startState_of_not_reaches (hwf : root.Wf d)
    (hno : ¬ Reaches root agentxDummyView sr.start) (st : σ) : startState h root sr st = st := by
  rw [startState]
  split
  · next hboth =>
      split
      · next callback x rest hwalk =>
          obtain ⟨p, hstart, hreg⟩ := mibTreeWalk_inst hwf hwalk
          refine absurd ⟨hboth.2, p, callback, hreg, hstart ▸ prefix_append p _, ?_⟩ hno
          intro heq
          rw [heq] at hstart
          exact absurd (self_eq_append_right.mp hstart) (by simp)
      · rfl
  · rfl

/-- **Without an instance behind the start** in its node, the search goes on behind the start. -/
theorem xMibGetnext_of_no_hit (hwf : root.Wf d) (henum : Enumerates h root I Ans)
    (hno : ∀ p callback x s, ¬ StartHit root I sr p callback x s) (hret : ret.request = .getnext)
    (w : World Event σ) :
    ∃ ret' w', xMibGetnext h root sr ret w = xMibSearchNext h root sr ret' w' ∧
      ret'.request = .getnext ∧ w'.state = startState h root sr w.state := by
  by_cases hincl : sr.startInclude = 0
  · refine ⟨ret, w, ?_, hret, ?_⟩
    · rw [xMibGetnext, if_neg (not_not.mpr hincl)]
    · rw [startState, if_neg fun hboth => hboth.1 hincl]
  -- what is found at the start is no valid query, so the search behind it follows
  have hnext : ∀ {ret' : OidSearchRes} {w' : World Event σ},
      (Prod.snd <$> mibTreeSearch h root agentxDummyView sr.start ret) w = (some ret', w') →
      invalidQuery ret' = true →
        xMibGetnext h root sr ret w = xMibSearchNext h root sr ret' w' := by
    intro ret' w' hrun hinvalid
    rw [xMibGetnext, if_pos hincl, bind_eq_of_some hrun, if_pos hinvalid]
  by_cases hreach : Reaches root agentxDummyView sr.start
  · obtain ⟨hview, p, callback, hreg, ⟨x, hstart⟩, hne⟩ := hreach
    have hx : x ≠ [] := by
      rintro rfl
      rw [append_nil] at hstart
      exact hne hstart
    rcases henum.least_or_none hreg x with hnone | ⟨s, hs⟩
    · rw [← hstart] at hview hnext
      obtain ⟨log, hrun⟩ := startSearch_apply (h := h) hwf hview hreg hx hret w
      have hmiss := henum.last p callback hreg x w.state hnone
      obtain ⟨r, htake, hreq, hinvalid⟩ := takeReply_of_miss p
        { ret with oid := p ++ x, errStat := 0, instId := x, callback := callback } hmiss
      rw [htake] at hrun
      refine ⟨r, _, hnext hrun hinvalid, hreq.trans hret, ?_⟩
      have hwalk := mibTreeWalk_registered hwf hreg x
      rw [startState, ← hstart, if_pos ⟨hincl, hview⟩, hwalk]
      cases x with
      | nil => exact absurd rfl hx
      | cons y rest => rfl
    · exact absurd ⟨hincl, hview, hreg, hstart.symm, hx, hs⟩ (hno p callback x s)
  · obtain ⟨node, instId, tag, htag, hsearch⟩ :=
      mibTreeSearch_of_not_reaches (h := h) hwf hreach ret
    let ret' : OidSearchRes :=
      { ret with oid := sr.start, errStat := 0, instId := instId, var := { ret.var with tag := tag } }
    have hrun : (Prod.snd <$> mibTreeSearch h root agentxDummyView sr.start ret) w =
        (some ret', w) := by
      rw [hsearch]
      rfl
    refine ⟨ret', w, hnext hrun (by simp [ret', invalidQuery, htag]), hret, ?_⟩
    rw [startState_of_not_reaches hwf hreach]

/-- **With an instance behind the start** in its node, that instance is written over the start. -/
theorem xMibGetnext_of_hit (hwf : root.Wf d) (henum : Enumerates h root I Ans) {p s : Oid}
    {callback : Int} (hhit : StartHit root I sr p callback x s) (hret : ret.request = .getnext)
    (w : World Event σ) :
    ∃ val tag r w', (h.call callback .getnext x none w.state).1 = .ret 0 s val tag ∧
      asn1TagCopied tag = true ∧ Ans callback s val tag ∧
      xMibGetnext h root sr ret w = (some r, w') ∧ r.request = .getnext ∧ r.errStat = 0 ∧
      r.oid = p ++ (s ++ x.drop s.length).take x.length ∧
      r.var = ret.var.copied (p ++ s) val tag := by
  obtain ⟨hincl, hview, hreg, hstart, hne, hnext⟩ := hhit
  obtain ⟨val, tag, hreply, hcop, hans⟩ := henum.next p callback hreg x s w.state hnext
  rw [hstart] at hview
  obtain ⟨log, hrun⟩ := startSearch_apply (h := h) hwf hview hreg hne hret w
  have hvalid := asn1TagValid_of_copied hcop
  let r : OidSearchRes := { ret with
    oid := p ++ x, errStat := 0, instId := s, callback := callback
    var := ret.var.copied (p ++ s) val tag }
  have htake : takeReply p
      { ret with oid := p ++ x, errStat := 0, instId := x, callback := callback }
      (.ret 0 s val tag) = some r := by
    simp [takeReply, hvalid, hcop, hret, r, Variable.copied]
  rw [hreply, htake, ← hstart] at hrun
  have hquery : invalidQuery r = false := by simp [invalidQuery, r, Variable.copied, hvalid]
  have hoid : writtenOver sr.start (mibTreeWalk sr.start root).2 s =
      p ++ (s ++ x.drop s.length).take x.length := by
    rw [hstart, mibTreeWalk_registered hwf hreg x, writtenOver]
    simp
  have hfound : xMibGetnext h root sr ret w =
      (some { r with oid := p ++ (s ++ x.drop s.length).take x.length },
        ⟨(h.call callback .getnext x none w.state).2, log⟩) := by
    rw [xMibGetnext, if_pos hincl, bind_eq_of_some hrun, if_neg (by simp [hquery]), ← hoid]
    rfl
  exact ⟨val, tag, _, _, hreply, hcop, hans, hfound, hret, rfl, rfl, rfl⟩

end Start

/-! ### Exact answers -/

/-- An instance that is written over one before it leaves that one if it goes on from it. -/
theorem take_written_eq_iff {s : Oid} (hlt : x < s) :
    (s ++ x.drop s.length).take x.length = x ↔ x <+: s := by
  constructor
  · intro heq
    rcases le_total x.length s.length with hle | hle
    · rw [take_append_of_le_length hle] at heq
      exact heq ▸ take_prefix _ _
    · -- a shorter one would be a prefix, and so before it
      have hlen : (s ++ x.drop s.length).length = x.length := by
        rw [length_append, length_drop]
        omega
      rw [← hlen, take_length] at heq
      exact absurd hlt (not_lt.mpr (le_of_extends (heq ▸ prefix_append s _)))
  · rintro ⟨t, rfl⟩
    rw [append_assoc, take_left]

/-- An instance that is written over another one is left as it is if it has the same length. -/
theorem take_written_eq_new_iff (x s : Oid) :
    (s ++ x.drop s.length).take x.length = s ↔ s.length = x.length := by
  constructor
  · intro heq
    have hlen := congrArg List.length heq
    simp only [length_take, length_append, length_drop] at hlen
    omega
  · intro hlen
    rw [← hlen, take_left]

section Exact

variable {h : Handlers σ} {root : MibNode} {d : ℕ} {I : Int → Set Oid}
  {Ans : Int → Oid → LuaVal → UInt8 → Prop} {sr : XSearchRange} {p x s : Oid} {callback : Int}

/-- Behind a start that is no instance, nothing in the range comes before the next instance of its
node. -/
theorem StartHit.next_le (hwf : root.Wf d) (hhit : StartHit root I sr p callback x s)
    (hx : x ∉ I callback) (ho : o ∈ rangeSet root I sr) : p ++ s ≤ o := by
  obtain ⟨⟨q, callback', y, hreg, hy, rfl⟩, -, hbegun, -⟩ := ho
  have hle := hbegun.le
  rw [hhit.start] at hle
  by_cases hpo : p <+: q ++ y
  · obtain rfl := registered_unique hwf hhit.node hreg hpo (prefix_append q y)
    have hsame : p ++ y = p ++ y := rfl
    obtain ⟨-, rfl, -⟩ := registered_split hwf hhit.node hreg hsame
    rw [append_le_append_left_iff] at hle ⊢
    exact hhit.next.2 ⟨hy, lt_of_le_of_ne hle fun heq => hx (heq ▸ hy)⟩
  · -- the whole node of the start is before another one
    have hlt : p < q ++ y :=
      lt_of_le_of_ne ((le_of_extends (prefix_append p x)).trans hle)
        fun heq => hpo (heq ▸ prefix_refl p)
    have hnode := append_lt_append_of_lt hlt hpo s []
    rw [append_nil] at hnode
    exact hnode.le

theorem StartHit.next_mem (hhit : StartHit root I sr p callback x s) (ho : o ∈ rangeSet root I sr)
    (hle : p ++ s ≤ o) : p ++ s ∈ rangeSet root I sr := by
  obtain ⟨-, hcov, -, hwithin⟩ := ho
  have hlt : sr.start < p ++ s := by
    rw [hhit.start, append_lt_append_left_iff]
    exact hhit.next.1.2
  exact ⟨⟨p, callback, s, hhit.node, hhit.next.1.1, rfl⟩,
    prefix_of_between hhit.view hcov hlt.le hle, XSearchRange.begun_of_lt hlt, hwithin.mono hle⟩

theorem StartHit.start_mem (hhit : StartHit root I sr p callback x s) (hx : x ∈ I callback)
    (ho : o ∈ rangeSet root I sr) : sr.start ∈ rangeSet root I sr := by
  obtain ⟨-, -, hbegun, hwithin⟩ := ho
  refine ⟨⟨p, callback, x, hhit.node, hx, hhit.start⟩, hhit.view, ?_, hwithin.mono hbegun.le⟩
  rw [XSearchRange.Begun, if_pos hhit.included]

/-- The answer at the start is exact. If the start is an instance, then the instance that is written
over it has to go on from it, and its value has to pass for that of the start. Otherwise the two
have to be of the same length. -/
def HitExact (h : Handlers σ) (root : MibNode) (I : Int → Set Oid)
    (Ans : Int → Oid → LuaVal → UInt8 → Prop) (sr : XSearchRange) (var : Variable) (st : σ)
    (p : Oid) (callback : Int) (x s : Oid) : Prop :=
  (x ∈ I callback → sr.start ∈ rangeSet root I sr ∧ x <+: s ∧
    ∀ val tag, (h.call callback .getnext x none st).1 = .ret 0 s val tag →
      ∃ val' tag', treeAns root Ans sr.start val' tag' ∧ asn1TagCopied tag' = true ∧
        (var.copied (p ++ s) val tag).Holds val' tag') ∧
  (x ∉ I callback → s.length = x.length ∧ p ++ s ∈ rangeSet root I sr)

/-- **The answer at the start.** -/
theorem StartHit.exact_iff (hwf : root.Wf d) (hhit : StartHit root I sr p callback x s)
    {var : Variable} {st : σ} {val : LuaVal} {tag : UInt8}
    (hreply : (h.call callback .getnext x none st).1 = .ret 0 s val tag)
    (hcop : asn1TagCopied tag = true) (hans : Ans callback s val tag) (hreq : r.request = .getnext)
    (herr : r.errStat = 0) (hoid : r.oid = p ++ (s ++ x.drop s.length).take x.length)
    (hvar : r.var = var.copied (p ++ s) val tag) :
    NextOutcome (rangeSet root I sr) (treeAns root Ans) sr.start r ↔
      HitExact h root I Ans sr var st p callback x s := by
  have hend : r.var.tag ≠ asn1TagEndOfMibView := by
    rw [hvar]
    exact ne_endOfMibView_of_copied hcop
  have hstart : r.oid = sr.start ↔ x <+: s := by
    rw [hoid, hhit.start, append_cancel_left_eq, take_written_eq_iff hhit.next.1.2]
  have hnew : r.oid = p ++ s ↔ s.length = x.length := by
    rw [hoid, append_cancel_left_eq, take_written_eq_new_iff]
  constructor
  · rintro ⟨-, -, ⟨val', tag', hleast, htree, hcop', hholds⟩ | ⟨-, -, htag⟩⟩
    · constructor
      · intro hx
        have hmem := hhit.start_mem hx hleast.1
        have heq : r.oid = sr.start := le_antisymm (hleast.2 hmem) hleast.1.2.2.1.le
        refine ⟨hmem, hstart.mp heq, fun val₁ tag₁ hreply₁ => ?_⟩
        obtain ⟨-, -, rfl, rfl⟩ := Reply.ret.inj (hreply.symm.trans hreply₁)
        exact ⟨val', tag', heq ▸ htree, hcop', hvar ▸ hholds⟩
      · intro hx
        have hle := hhit.next_le hwf hx hleast.1
        have hmem := hhit.next_mem hleast.1 hle
        exact ⟨hnew.mp (le_antisymm (hleast.2 hmem) hle), hmem⟩
    · exact absurd htag hend
  · rintro ⟨hin, hnot⟩
    refine ⟨hreq, herr, .inl ?_⟩
    by_cases hx : x ∈ I callback
    · obtain ⟨hmem, hpre, hpass⟩ := hin hx
      obtain ⟨val', tag', htree, hcop', hholds⟩ := hpass val tag hreply
      rw [hstart.mpr hpre]
      exact ⟨val', tag', ⟨hmem, fun o ho => ho.2.2.1.le⟩, htree, hcop', hvar ▸ hholds⟩
    · obtain ⟨hlen, hmem⟩ := hnot hx
      rw [hnew.mpr hlen]
      refine ⟨val, tag, ⟨hmem, fun o ho => hhit.next_le hwf hx ho⟩, ?_, hcop, ?_⟩
      · exact ⟨p, callback, s, hhit.node, rfl, hans⟩
      · rw [hvar]
        exact ⟨rfl, rfl, _, rfl⟩

/-- `mib_getnext` answers a search range with the least instance in it and a value of that instance,
or with `END_OF_MIB_VIEW` and its start. -/
def RangeExact (h : Handlers σ) (root : MibNode) (I : Int → Set Oid)
    (Ans : Int → Oid → LuaVal → UInt8 → Prop) (sr : XSearchRange) (ret : OidSearchRes)
    (w : World Event σ) : Prop :=
  ∃ r w', xMibGetnext h root sr ret w = (some r, w') ∧
    NextOutcome (rangeSet root I sr) (treeAns root Ans) sr.start r

/-- **Search ranges.** With an instance behind an included start in its node, the answer is exact
when `HitExact` holds. Otherwise the view has to be one that can be probed, and the range must not
contain what the search behind the start passes over: the start, `1.3.6.1` itself, and everything if
the range has no end. -/
theorem xMibGetnext_exact_iff (hroot : root.Reachable) (henum : Enumerates h root I Ans)
    (hinst : ∀ o ∈ Instances root I, Oid.Small o) (hsr : sr.Small) (ret : OidSearchRes)
    (hret : ret.request = .getnext) (w : World Event σ) :
    RangeExact h root I Ans sr ret w ↔
      (∀ p callback x s, StartHit root I sr p callback x s →
        HitExact h root I Ans sr ret.var w.state p callback x s) ∧
      ((∀ p callback x s, ¬ StartHit root I sr p callback x s) →
        (Entered agentxDummyView sr.start →
          ProbeTaken h root agentxDummyView (startState h root sr w.state)) ∧
        RangeSought root I sr) := by
  have hwf := hroot.wf
  have hanswer : ∀ {r : OidSearchRes} {w' : World Event σ},
      xMibGetnext h root sr ret w = (some r, w') → (RangeExact h root I Ans sr ret w ↔
        NextOutcome (rangeSet root I sr) (treeAns root Ans) sr.start r) := by
    intro r w' hrun
    constructor
    · rintro ⟨r', w'', hrun', hout⟩
      obtain ⟨hr, -⟩ := Prod.mk.inj (hrun.symm.trans hrun')
      rwa [Option.some.inj hr]
    · exact fun hout => ⟨r, w', hrun, hout⟩
  -- an instance behind an included start in its node, or the search behind the start
  by_cases hsome : ∃ p callback x s, StartHit root I sr p callback x s
  · obtain ⟨p, callback, x, s, hhit⟩ := hsome
    obtain ⟨val, tag, r, w', hreply, hcop, hans, hrun, hreq, herr, hoid, hvar⟩ :=
      xMibGetnext_of_hit hwf henum hhit hret w
    rw [hanswer hrun, hhit.exact_iff hwf hreply hcop hans hreq herr hoid hvar]
    constructor
    · refine fun hexact =>
        ⟨fun p' callback' x' s' hhit' => ?_, fun hno => absurd hhit (hno _ _ _ _)⟩
      obtain ⟨rfl, rfl, rfl⟩ :=
        registered_split hwf hhit.node hhit'.node (hhit.start.symm.trans hhit'.start)
      rwa [← hhit.next.unique hhit'.next]
    · exact fun hall => hall.1 p callback x s hhit
  · have hno : ∀ p callback x s, ¬ StartHit root I sr p callback x s :=
      fun p callback x s hhit => hsome ⟨p, callback, x, s, hhit⟩
    obtain ⟨ret', w₁, hgetnext, hret', hstate⟩ := xMibGetnext_of_no_hit hwf henum hno hret w
    rw [and_iff_right fun p callback x s hhit => absurd hhit (hno p callback x s),
      forall_prop_of_true hno, ← hstate, ← viewProbe_yields_iff hwf h agentxDummyView ret' w₁]
    by_cases hprobe : Entered agentxDummyView sr.start →
        ∃ r w', viewProbe h root agentxDummyView ret' w₁ = (some r, w')
    · obtain ⟨r, w', hrun, hout⟩ := xMibSearchNext_spec hwf henum hinst hsr hret' w₁ hprobe
      rw [hanswer (hgetnext.trans hrun), nextOutcome_range_iff hout, and_iff_right hprobe]
    · refine iff_of_false ?_ fun hboth => hprobe hboth.1
      rintro ⟨r, w', hrun, -⟩
      obtain ⟨hent, hnone⟩ := Classical.not_imp.mp hprobe
      exact xMibSearchNext_of_no_probe hwf hent hnone ⟨r, w', hgetnext.symm.trans hrun⟩

end Exact

/-! ### A scalar in a sub-agent -/

/-- A tree with a scalar object at `1.3.6.1.2`. -/
def subagentRoot : MibNode := (mibNodeReg (.group []) [1, 3, 6, 1, 2] 0).2

theorem registered_subagentRoot : registered subagentRoot = [([1, 3, 6, 1, 2], 0)] := by
  decide

/-- The only instance is that of the object. -/
theorem mem_instances_subagentRoot {inst : Oid} :
    o ∈ Instances subagentRoot (fun _ => {inst}) ↔ o = [1, 3, 6, 1, 2] ++ inst := by
  simp [Instances, registered_subagentRoot]

/-- A range of the sub-agent is answered exactly when the object has the instance 2. -/
def RowExact (sr : XSearchRange) : Prop :=
  RangeExact (singleHandlers [2]) subagentRoot (fun _ => {[2]})
    (fun _ _ val tag => val = .num 7 ∧ tag = asn1TagInt) sr { request := .getnext } ⟨(), []⟩

/-- The range behind `1.3.6.1`, up to `1.3.6.1.3`. -/
def prefixRange : XSearchRange where
  start := [1, 3, 6, 1]
  stop := [1, 3, 6, 1, 3]
  startInclude := 0
  endInclude := 0

/-- The range from `1.3.6.1.2.1` on, which is no instance, up to `1.3.6.1.3`. -/
def vacantRange : XSearchRange where
  start := [1, 3, 6, 1, 2, 1]
  stop := [1, 3, 6, 1, 3]
  startInclude := 1
  endInclude := 0

/-- Both ranges are answered exactly: the one behind `1.3.6.1` by the search behind the start, and
the one with an included start by the instance behind it in its node. -/
theorem xMibGetnext_exact_row : RowExact prefixRange ∧ RowExact vacantRange := by
  have hreach : subagentRoot.Reachable := .reg [1, 3, 6, 1, 2] 0 .init
  have henum : Enumerates (singleHandlers [2]) subagentRoot (fun _ => {[2]})
      (fun _ _ val tag => val = .num 7 ∧ tag = asn1TagInt) := by
    refine singleHandlers_enumerates (by decide) (fun _ => ⟨rfl, rfl⟩) fun p callback hp => ?_
    obtain ⟨rfl, -⟩ : p = [1, 3, 6, 1, 2] ∧ callback = 0 := by
      simpa [registered_subagentRoot] using hp
    decide
  have hsmall : ∀ o ∈ Instances subagentRoot (fun _ => {[2]}), Oid.Small o := by
    intro o ho
    rw [mem_instances_subagentRoot.mp ho]
    simp [Oid.Small]
  have hnode : ([1, 3, 6, 1, 2], 0) ∈ registered subagentRoot := by
    rw [registered_subagentRoot]
    exact mem_singleton_self _
  have hnext : StartHit subagentRoot (fun _ => {[2]}) vacantRange [1, 3, 6, 1, 2] 0 [1] [2] :=
    ⟨by decide, by decide, hnode, rfl, by decide, ⟨rfl, by decide⟩, fun y hy => hy.1.ge⟩
  constructor
  · refine (xMibGetnext_exact_iff hreach henum hsmall ⟨by simp [Oid.Small, prefixRange],
      by simp [Oid.Small, prefixRange]⟩ { request := .getnext } rfl ⟨(), []⟩).mpr
      ⟨fun p callback x s hhit => absurd rfl hhit.included, fun _ => ⟨fun _ => ?_, ?_⟩⟩
    · intro p callback x hreg hview hne
      obtain ⟨rfl, -⟩ : p = [1, 3, 6, 1, 2] ∧ callback = 0 := by
        simpa [registered_subagentRoot] using hreg
      exact absurd (congrArg List.length hview) (by simp [agentxDummyView])
    · rintro o ⟨ho, -⟩
      rw [mem_instances_subagentRoot.mp ho]
      exact ⟨by decide, by decide, by decide⟩
  · refine (xMibGetnext_exact_iff hreach henum hsmall ⟨by simp [Oid.Small, vacantRange],
      by simp [Oid.Small, vacantRange]⟩ { request := .getnext } rfl ⟨(), []⟩).mpr
      ⟨fun p callback x s hhit => ?_, fun hno => absurd hnext (hno _ _ _ _)⟩
    obtain ⟨rfl, rfl, rfl⟩ :=
      registered_split hreach.wf hnode hhit.node (hnext.start.symm.trans hhit.start)
    obtain rfl := hhit.next.unique hnext.next
    refine ⟨fun hx => absurd hx (by decide), fun _ => ⟨rfl, ?_⟩⟩
    exact ⟨mem_instances_subagentRoot.mpr rfl, by decide, XSearchRange.begun_of_lt (by decide),
      .inr (by decide)⟩

/-- `END_OF_MIB_VIEW` is not exact when there is an instance in the range. -/
theorem not_rangeExact_of_end {h : Handlers σ} {root : MibNode} {I : Int → Set Oid}
    {Ans : Int → Oid → LuaVal → UInt8 → Prop} {sr : XSearchRange} {w : World Event σ}
    (hend : (xMibGetnext h root sr ret w).1.map (·.var.tag) = some asn1TagEndOfMibView)
    (ho : o ∈ rangeSet root I sr) : ¬ RangeExact h root I Ans sr ret w := by
  rintro ⟨r, w', hrun, -, -, ⟨val, tag, -, -, hcop, hholds⟩ | ⟨hempty, -⟩⟩
  · rw [hrun] at hend
    exact ne_endOfMibView_of_copied hcop (hholds.1.symm.trans (Option.some.inj hend))
  · exact hempty.subset ho

/-- The range of everything behind `1.3.6.1`. -/
def unboundedRange : XSearchRange where
  start := [1, 3, 6, 1]
  stop := []
  startInclude := 0
  endInclude := 0

/-- The range from the scalar on, up to `1.3.6.1.3`. -/
def scalarRange : XSearchRange where
  start := [1, 3, 6, 1, 2, 0]
  stop := [1, 3, 6, 1, 3]
  startInclude := 1
  endInclude := 0

/-- The scalar is in a range, and the answer says that there is nothing. -/
def ScalarMissed (sr : XSearchRange) : Prop :=
  (xMibGetnext scalarHandlers subagentRoot sr { request := .getnext } ⟨(), []⟩).1.map
      (·.var.tag) = some asn1TagEndOfMibView ∧
    [1, 3, 6, 1, 2, 0] ∈ rangeSet subagentRoot (fun _ => {[0]}) sr ∧
    ¬ RangeExact scalarHandlers subagentRoot (fun _ => {[0]})
      (fun _ _ val tag => val = .num 7 ∧ tag = asn1TagInt) sr { request := .getnext } ⟨(), []⟩

/-- **Instances are missed**: the scalar when the range has no end, and when it is itself the start
of a range that includes it. -/
theorem scalar_missed : ScalarMissed unboundedRange ∧ ScalarMissed scalarRange := by
  have hunbounded : [1, 3, 6, 1, 2, 0] ∈ rangeSet subagentRoot (fun _ => {[0]}) unboundedRange :=
    ⟨mem_instances_subagentRoot.mpr rfl, by decide, XSearchRange.begun_of_lt (by decide),
      .inl rfl⟩
  have hscalar : [1, 3, 6, 1, 2, 0] ∈ rangeSet subagentRoot (fun _ => {[0]}) scalarRange :=
    ⟨mem_instances_subagentRoot.mpr rfl, by decide, le_refl _, .inr (by decide)⟩
  have hmissed {sr : XSearchRange}
      (hend : (xMibGetnext scalarHandlers subagentRoot sr { request := .getnext } ⟨(), []⟩).1.map
        (·.var.tag) = some asn1TagEndOfMibView)
      (hmem : [1, 3, 6, 1, 2, 0] ∈ rangeSet subagentRoot (fun _ => {[0]}) sr) : ScalarMissed sr :=
    ⟨hend, hmem, not_rangeExact_of_end hend hmem⟩
  exact ⟨hmissed (by decide +kernel) hunbounded, hmissed (by decide +kernel) hscalar⟩

end SmithSnmp
