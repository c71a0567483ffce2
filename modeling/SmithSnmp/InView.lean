import SmithSnmp.MsgTrace
import SmithSnmp.Walk

/-!
# GETNEXT and One View

What `mib_tree_search_next` returns for one view, and which handlers it calls on the way.

For an OID in the view the search is exact: it returns the least greater instance in the
view. For an OID ahead of the view it asks for what follows the view OID itself. Below an
instance node the view OID may be an instance, which is then passed over.

## Main results

* `mibTreeSearchNext_inView`: the search for an OID in the view, with at most one GETNEXT
  call for each instance node.
* `mibTreeSearchNext_enters_iff`: when a search that enters the view from ahead of it finds
  the least instance of the view.
-/

namespace SmithSnmp

open List Lib Traced MibNode

variable {σ : Type}

variable {h : Handlers σ} {root : MibNode} {d : ℕ}

/-! ### The probe at the view OID -/

/-- No assertion fails on the reply to a GET: a valid tag without an error status is one
whose value can be copied. -/
def Reply.Copied : Reply → Prop
  | .fail => True
  | .ret errStat _ _ tag => errStat = 0 → asn1TagValid tag = true → asn1TagCopied tag = true

/-- GET of the view OID, with which the search of GETNEXT begins, does not end the agent. -/
def ProbeTaken (h : Handlers σ) (root : MibNode) (view : Oid) (st : σ) : Prop :=
  ∀ p callback x, (p, callback) ∈ registered root → view = p ++ x → x ≠ [] →
    (h.call callback .get x none st).1.Copied

theorem probeTaken_below (hwf : root.Wf d) {p x : Oid} {callback : Int}
    (hreg : (p, callback) ∈ registered root) {st : σ}
    (hcopied : (h.call callback .get x none st).1.Copied) : ProbeTaken h root (p ++ x) st := by
  intro q callback' y hreg' hview _
  obtain ⟨rfl, rfl, rfl⟩ := registered_split hwf hreg hreg' hview
  exact hcopied

/-- Handlers without errors: no reply to a GET ends the agent. -/
def ErrorFree (h : Handlers σ) (root : MibNode) : Prop :=
  ∀ p callback, (p, callback) ∈ registered root → ∀ x st,
    (h.call callback .get x none st).1.Copied

theorem ErrorFree.probeTaken (hfree : ErrorFree h root) (view : Oid) (st : σ) :
    ProbeTaken h root view st :=
  fun p callback x hreg _ _ => hfree p callback hreg x st

theorem isSome_takeReply_get_iff {path : Oid} {ret : OidSearchRes} (hget : ret.request = .get)
    (reply : Reply) : (takeReply path ret reply).isSome = true ↔ reply.Copied := by
  rcases reply with _ | ⟨err, sub, val, tag⟩
  · simp [takeReply, Reply.Copied]
  · rw [takeReply, Reply.Copied]
    by_cases hval : err = 0 ∧ asn1TagValid tag = true
    · rw [if_pos hval, hget]
      by_cases hcop : asn1TagCopied tag = true
      · simp [hcop]
      · simp [hcop, hval.1, hval.2]
    · rw [if_neg hval]
      have himp : err = 0 → asn1TagValid tag = true → asn1TagCopied tag = true :=
        fun h0 hv => absurd ⟨h0, hv⟩ hval
      exact iff_of_true rfl himp

/-! ### The calls of a search -/

/-- The event is a GETNEXT call for the instance node at `p`. -/
def Event.isNextAt (p : Oid) : Event → Bool
  | .call .getnext _ o => decide (p <+: o)
  | _ => false

/-- The call that makes a query. -/
def Query.event (q : Query) : Event := .call .getnext q.callback (q.path ++ q.suffix)

theorem viewProbe_cases (hwf : root.Wf d) (h : Handlers σ) (view : Oid) (ret : OidSearchRes)
    (w : World Event σ) :
    (ProbeTaken h root view w.state ∧ ∃ r w' new, viewProbe h root view ret w = (some r, w') ∧
        r.request = .getnext ∧ w'.log = w.log ++ new ∧ ∀ p, ∀ e ∈ new, e.isNextAt p = false) ∨
      (¬ ProbeTaken h root view w.state ∧ (viewProbe h root view ret w).1 = none) := by
  rw [viewProbe]
  by_cases hreach : Reaches root view view
  · obtain ⟨p, callback, x, hview, hx, hreg, heq⟩ := mibTreeSearch_of_reaches (h := h) hwf hreach
    -- the probe is a GET of the OID of the view
    have htaken : ProbeTaken h root view w.state ↔
        (h.call callback .get x none w.state).1.Copied := by
      constructor
      · exact fun ht => ht p callback x hreg hview hx
      · exact fun hcop => hview ▸ probeTaken_below hwf hreg hcop
    rw [heq, Traced.bind_assoc]
    set ret' : OidSearchRes :=
      { ret with request := .get, oid := view, errStat := 0, instId := x, callback := callback }
    set w' : World Event σ :=
      { state := (h.call callback .get x none w.state).2
        log := w.log ++ [.call .get callback (p ++ x)] }
    have hsearch : mibInstanceSearch h p ret' w =
        (takeReply p ret' (h.call callback .get x none w.state).1, w') :=
      mibInstanceSearch_apply h p ret' w
    have hsome : (takeReply p ret' (h.call callback .get x none w.state).1).isSome = true ↔
        (h.call callback .get x none w.state).1.Copied := isSome_takeReply_get_iff rfl _
    by_cases hcop : (h.call callback .get x none w.state).1.Copied
    · obtain ⟨r, hr⟩ := Option.isSome_iff_exists.mp (hsome.mpr hcop)
      rw [hr] at hsearch
      rw [Traced.bind_eq_of_some hsearch]
      exact .inl ⟨htaken.mpr hcop, _, w', [.call .get callback (p ++ x)], rfl, rfl, rfl,
        by simp [Event.isNextAt]⟩
    · have hnone : takeReply p ret' (h.call callback .get x none w.state).1 = none :=
        Option.not_isSome_iff_eq_none.mp fun hs => hcop (hsome.mp hs)
      rw [hnone] at hsearch
      rw [Traced.bind_eq_of_none hsearch]
      exact .inr ⟨fun ht => hcop (htaken.mp ht), rfl⟩
  · obtain ⟨node, instId, tag, -, heq⟩ :=
      mibTreeSearch_of_not_reaches (h := h) hwf hreach { ret with request := .get }
    refine .inl ⟨?_, ?_⟩
    · intro p callback x hreg hview hx
      refine absurd ⟨prefix_refl view, p, callback, hreg, hview ▸ prefix_append p x, ?_⟩
        hreach
      intro hp
      rw [hp] at hview
      exact hx (self_eq_append_right.mp hview)
    · rw [heq]
      exact ⟨_, w, [], rfl, rfl, by simp, by simp⟩

/-- The calls of a traversal are those of its first queries. -/
theorem runQueries_events (h : Handlers σ) (view orig : Oid) (qs : List Query)
    (ret : OidSearchRes) (hret : ret.request = .getnext) :
    Spec (runQueries h view orig qs ret) fun _ new => ∃ k, new = (qs.take k).map Query.event := by
  induction qs generalizing ret with
  | nil => exact Spec.pure ⟨0, rfl⟩
  | cons q qs ih =>
    have hlast : ∃ k, [q.event] = ((q :: qs).take k).map Query.event := ⟨1, by simp⟩
    rw [runQueries]
    refine Spec.bind (P := fun r new => new = [q.event] ∧ ∀ a, r = some a → a.request = .getnext)
      (mibInstanceSearch_spec fun st => ⟨?_, ?_⟩) ?_ ?_
    · simp [hret, Query.event]
    · intro r hr
      exact (takeReply_eq_some hr).1.trans hret
    · rintro r l ⟨rfl, hreq⟩
      have hgo : ∀ r' : OidSearchRes, r'.request = .getnext →
          Spec (runQueries h view orig qs r') fun _ new =>
            ∃ k, [q.event] ++ new = ((q :: qs).take k).map Query.event := by
        intro r' hr'
        refine (ih r' hr').mono ?_
        rintro _ new ⟨k, rfl⟩
        exact ⟨k + 1, by simp⟩
      split
      · dsimp only
        split
        · exact Spec.abort (by simpa using hlast)
        · split
          · exact hgo _ (hreq r rfl)
          · exact Spec.pure (by simpa using hlast)
      · exact hgo r (hreq r rfl)
    · rintro l ⟨rfl, -⟩
      exact hlast

/-- Among calls for different registered instance nodes at most one is for the node at
`p`. -/
theorem countP_events_le_one (hwf : root.Wf d) {qs : List Query}
    (hreg : ∀ q ∈ qs, (q.path, q.callback) ∈ registered root)
    (hord : qs.Pairwise fun a b => ∀ x y, a.path ++ x < b.path ++ y) {p : Oid} {callback : Int}
    (hp : (p, callback) ∈ registered root) :
    (qs.map Query.event).countP (Event.isNextAt p) ≤ 1 := by
  have hpath : ∀ q ∈ qs, q.event.isNextAt p = true → q.path = p := by
    intro q hq hat
    have hpre : p <+: q.path ++ q.suffix := by simpa [Query.event, Event.isNextAt] using hat
    exact registered_unique hwf (hreg q hq) hp (prefix_append q.path q.suffix) hpre
  induction qs with
  | nil => simp
  | cons q qs ih =>
    obtain ⟨hhead, htail⟩ := pairwise_cons.mp hord
    have hrest := ih (fun q' hq' => hreg q' (by simp [hq'])) htail
      (fun q' hq' => hpath q' (by simp [hq']))
    rw [map_cons, countP_cons]
    split
    · next hat =>
        have hzero : (qs.map Query.event).countP (Event.isNextAt p) = 0 := by
          refine countP_eq_zero.mpr fun e he hat' => ?_
          obtain ⟨q', hq', rfl⟩ := mem_map.mp he
          have hlt := hhead q' hq' [] []
          rw [hpath q (by simp) hat, hpath q' (by simp [hq']) hat'] at hlt
          exact lt_irrefl _ hlt
        omega
    · omega

/-! ### The search in a view that is entered -/

/-- **GETNEXT in an entered view**, with handlers that enumerate their instances: the search
comes to its end with the least instance of `nextSet`, and makes at most one GETNEXT call for
each instance node. -/
theorem mibTreeSearchNext_entered (hwf : root.Wf d) {I : Int → Set Oid}
    {Ans : Int → Oid → LuaVal → UInt8 → Prop} (henum : Enumerates h root I Ans) {view orig : Oid}
    (hent : Entered view orig) (ret : OidSearchRes) {w : World Event σ}
    (ht : ProbeTaken h root view w.state) :
    ∃ r w' new, mibTreeSearchNext h root view orig ret w = (some r, w') ∧
      NextOutcome (nextSet root I view orig) (treeAns root Ans) orig r ∧
      w'.log = w.log ++ new ∧
      ∀ p callback, (p, callback) ∈ registered root → new.countP (Event.isNextAt p) ≤ 1 := by
  have : Nonempty σ := ⟨w.state⟩
  obtain ⟨-, r₁, w₁, probes, hprobe, hreq, hlog, hprobes⟩ | ⟨hnot, -⟩ :=
    viewProbe_cases hwf h view ret w
  · rw [mibTreeSearchNext_eq h hwf, if_pos hent, Traced.bind_eq_of_some hprobe,
      ← answers_nextQueries hwf henum.suffix hent]
    have hreg : ∀ q ∈ nextQueries root view orig, (q.path, q.callback) ∈ registered root :=
      fun q => nextQueries_registered hwf
    have hord := nextQueries_ordered hwf view orig
    set r₂ : OidSearchRes := { r₁ with oid := if view <+: orig then orig else view }
    have hside : ∀ q ∈ nextQueries root view orig, q.Beside view :=
      fun q => nextQueries_beside hwf
    obtain ⟨r, w', hrun, hout⟩ :
        ∃ r w', runQueries h view orig (nextQueries root view orig) r₂ w₁ = (some r, w') ∧
          NextOutcome (answers I view (nextQueries root view orig)) (treeAns root Ans) orig r :=
      runQueries_outcome henum hreg hord hside r₂ hreq w₁
    obtain ⟨calls, hcalls, k, rfl⟩ := runQueries_events h view orig
      (nextQueries root view orig) r₂ hreq w₁
    rw [hrun] at hcalls
    refine ⟨r, w', probes ++ ((nextQueries root view orig).take k).map Query.event, hrun, hout,
      ?_, fun p callback hp => ?_⟩
    · rw [hcalls, hlog, append_assoc]
    · have hzero : probes.countP (Event.isNextAt p) = 0 :=
        countP_eq_zero.mpr fun e he => by simp [hprobes p e he]
      rw [countP_append, hzero, Nat.zero_add]
      exact countP_events_le_one hwf (fun q hq => hreg q (mem_of_mem_take hq))
        (hord.sublist (take_sublist ..)) hp
  · exact absurd ht hnot

/-- **In-view GETNEXT.** For every OID covered by the view the search returns the least
greater instance in the view, or `END_OF_MIB_VIEW` with the OID restored, and calls each
instance node's GETNEXT handler at most once. -/
theorem mibTreeSearchNext_inView {h : Handlers σ} {root : MibNode} (hr : root.Reachable)
    {I : Int → Set Oid} {Ans : Int → Oid → LuaVal → UInt8 → Prop} (hfree : ErrorFree h root)
    (henum : Enumerates h root I Ans) {view orig : Oid} (hcov : view <+: orig)
    (ret : OidSearchRes) (w : World Event σ) :
    ∃ r w' new, mibTreeSearchNext h root view orig ret w = (some r, w') ∧
      NextOutcome {o | o ∈ Instances root I ∧ view <+: o ∧ orig < o} (treeAns root Ans) orig r ∧
      w'.log = w.log ++ new ∧
      ∀ p callback, (p, callback) ∈ registered root → new.countP (Event.isNextAt p) ≤ 1 := by
  have hent : Entered view orig := .inl hcov
  have hset : nextSet root I view orig = {o | o ∈ Instances root I ∧ view <+: o ∧ orig < o} := by
    ext o
    simp only [nextSet, nextBase, hcov, if_true, hent, true_and, Set.mem_ofPred_eq]
  rw [← hset]
  exact mibTreeSearchNext_entered hr.wf henum hent ret (hfree.probeTaken view w.state)

theorem scalarHandlers_errorFree (root : MibNode) : ErrorFree scalarHandlers root := by
  intro p callback _ x st
  by_cases hx : x = [0]
  · simp only [scalarHandlers, singleHandlers, hx, if_true, Reply.Copied]
    decide
  · simp only [scalarHandlers, singleHandlers, hx, if_false, Reply.Copied]
    decide

/-- The searches of the agent with two scalars for what follows `1` and for what follows `1.3.0` in
the view `1`: the second one leaves out `2.5.0`, which is in another view. -/
theorem pairAgent_inView :
    [2, 5, 0] ∈ Instances pairAgent.root (fun _ => {[0]}) ∧
      ∀ orig ∈ ([[1], [1, 3, 0]] : List Oid), [1] <+: orig ∧
        ∃ r w' new, mibTreeSearchNext scalarHandlers pairAgent.root [1] orig
            { request := .getnext } ⟨(), []⟩ = (some r, w') ∧
          NextOutcome {o | o ∈ Instances pairAgent.root (fun _ => {[0]}) ∧ [1] <+: o ∧ orig < o}
            (treeAns pairAgent.root fun _ _ _ _ => True) orig r ∧
          w'.log = [] ++ new ∧ ∀ p callback, (p, callback) ∈ registered pairAgent.root →
            new.countP (Event.isNextAt p) ≤ 1 := by
  refine ⟨⟨[2, 5], 1, [0], by simp [registered_pairAgent], rfl, rfl⟩, fun orig horig => ?_⟩
  have hcov : [1] <+: orig :=
    (by decide : ∀ orig ∈ ([[1], [1, 3, 0]] : List Oid), [1] <+: orig) orig horig
  exact ⟨hcov, mibTreeSearchNext_inView pairAgent_walkable.tree (scalarHandlers_errorFree _)
    pairAgent_walkable.enumerates hcov _ _⟩

/-! ### Entering a view from ahead of it -/

theorem nextSet_of_ahead {I : Int → Set Oid} {view orig : Oid} (hent : Entered view orig)
    (hnot : ¬ view <+: orig) :
    nextSet root I view orig = {o | o ∈ Instances root I ∧ view <+: o ∧ o ≠ view} := by
  ext o
  simp only [nextSet, nextBase, hnot, if_false, hent, true_and, Set.mem_ofPred_eq]
  refine and_congr_right fun _ => and_congr_right fun hcov => ?_
  exact ⟨fun hlt => hlt.ne', fun hne => lt_of_prefix_of_ne hcov hne.symm⟩

/-- **Entering a view.** For an OID smaller than the view OID, the search returns the least
instance covered by the view, or `END_OF_MIB_VIEW` when there is none, if and only if the
view OID itself is no instance and the GET with which the search begins does not end the
agent. -/
theorem mibTreeSearchNext_enters_iff {h : Handlers σ} {root : MibNode} (hr : root.Reachable)
    {I : Int → Set Oid} {Ans : Int → Oid → LuaVal → UInt8 → Prop}
    (henum : Enumerates h root I Ans) {view orig : Oid} (hv : Oid.Small view)
    (ho : Oid.Small orig) (hlt : orig < view) (ret : OidSearchRes) (w : World Event σ) :
    (∃ r w', mibTreeSearchNext h root view orig ret w = (some r, w') ∧
        NextOutcome {o | o ∈ Instances root I ∧ view <+: o} (treeAns root Ans) orig r) ↔
      view ∉ Instances root I ∧ ProbeTaken h root view w.state := by
  have hent : Entered view orig := .inr ((oidCmp_neg_iff_lt ho hv).mpr hlt)
  have hnot : ¬ view <+: orig := fun hcov => hlt.not_ge (le_of_extends hcov)
  by_cases ht : ProbeTaken h root view w.state
  · obtain ⟨r, w', -, hrun, hout, -⟩ := mibTreeSearchNext_entered hr.wf henum hent ret ht
    rw [nextSet_of_ahead hent hnot] at hout
    refine Iff.trans ?_ (and_iff_left ht).symm
    constructor
    · rintro ⟨r', w'', hrun', hout'⟩ hin
      obtain ⟨rfl, -⟩ : r' = r ∧ w'' = w' := by simpa [hrun] using hrun'.symm
      have hleast : IsLeast {o | o ∈ Instances root I ∧ view <+: o} view :=
        ⟨⟨hin, prefix_refl view⟩, fun o ho => le_of_extends ho.2⟩
      -- the view OID would have to be returned, which is not among what the search looks for
      obtain ⟨-, -, ⟨val, tag, hr', -, hcop, hholds⟩ | ⟨hempty, -⟩⟩ := hout'
      · have hoid : r'.oid = view := hr'.unique hleast
        obtain ⟨-, -, ⟨_, _, hne, -⟩ | ⟨-, -, htag⟩⟩ := hout
        · exact hne.1.2.2 hoid
        · exact ne_endOfMibView_of_copied hcop (hholds.1 ▸ htag)
      · exact hempty.subset hleast.1
    · intro hin
      refine ⟨r, w', hrun, ?_⟩
      convert hout using 1
      ext o
      refine and_congr_right fun ho => (and_iff_left ?_).symm
      rintro rfl
      exact hin ho
  · refine iff_of_false ?_ fun hcond => ht hcond.2
    rintro ⟨r, w', hrun, -⟩
    obtain ⟨htaken, -⟩ | ⟨-, hnone⟩ := viewProbe_cases hr.wf h view ret w
    · exact ht htaken
    · have hprobe : viewProbe h root view ret w = (none, (viewProbe h root view ret w).2) :=
        Prod.ext hnone rfl
      rw [mibTreeSearchNext_eq h hr.wf, if_pos hent, Traced.bind_eq_of_none hprobe] at hrun
      cases hrun

/-- The search of the agent with two scalars that enters the view `2` from `1.3.0`. -/
theorem pairAgent_enters :
    ([1, 3, 0] : Oid) < [2] ∧ ∃ r w', mibTreeSearchNext scalarHandlers pairAgent.root [2] [1, 3, 0]
        { request := .getnext } ⟨(), []⟩ = (some r, w') ∧
      NextOutcome {o | o ∈ Instances pairAgent.root (fun _ => {[0]}) ∧ [2] <+: o}
        (treeAns pairAgent.root fun _ _ _ _ => True) [1, 3, 0] r := by
  refine ⟨by decide, (mibTreeSearchNext_enters_iff pairAgent_walkable.tree
    pairAgent_walkable.enumerates (by simp [Oid.Small]) (by simp [Oid.Small]) (by decide)
    _ _).mpr ⟨?_, (scalarHandlers_errorFree _).probeTaken _ _⟩⟩
  rintro ⟨p, callback, x, hp, rfl, heq⟩
  rw [registered_pairAgent] at hp
  obtain ⟨rfl, -⟩ | ⟨rfl, -⟩ : p = [1, 3] ∧ callback = 0 ∨ p = [2, 5] ∧ callback = 1 := by
    simpa using hp
  all_goals exact absurd heq (by decide)

/-- The view `1.3.0` is the OID of the only instance, and the search that enters it from `1`
ends with `END_OF_MIB_VIEW`. -/
theorem scalarAgent_passed_over :
    [1, 3, 0] ∈ Instances scalarAgent.root (fun _ => {[0]}) ∧
      (mibTreeSearchNext scalarHandlers scalarAgent.root [1, 3, 0] [1] { request := .getnext }
        ⟨(), []⟩).1.map (fun r => (r.oid, r.var.tag)) = some ([1], asn1TagEndOfMibView) := by
  refine ⟨⟨[1, 3], 0, [0], ?_, rfl, rfl⟩, by decide⟩
  simp [registered_scalarAgent]

end SmithSnmp
