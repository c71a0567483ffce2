import SmithSnmp.MibNext
import SmithSnmp.MsgProc

/-!
# The Loops over the Views

`mib_get`, `mib_set` and `mib_getnext` walk through the views of a principal with
`mib_community_next_view` and `mib_user_next_view`, which look up the last view in the list
to find the next one. As the views of a list are different, this visits each of them once,
in order: the loop is a recursion over the list.

## Main results

* `viewLoop_eq_overViews`: the loop as a recursion over the list of views.
* `getnextViews_spec`: what GETNEXT finds over all views.
-/

namespace SmithSnmp

open Lib MibNode

variable {σ : Type}

variable {views : List Oid} {ag : Agent σ} {sdg : SnmpDatagram}

/-! ### The loop as a recursion -/

/-- The loop over a list of views. -/
def overViews (search : Oid → OidSearchRes → AgentM σ OidSearchRes)
    (found : Oid → OidSearchRes → Bool) (oid : Oid) :
    List Oid → OidSearchRes → AgentM σ OidSearchRes
  | [], ret => pure { ret with oid := oid }
  | view :: views, ret => do
      let ret ← search view ret
      if found view ret then pure ret else overViews search found oid views ret

/-- The first view is the one after `NULL`. -/
theorem nextView_none (views : List Oid) : nextView views none = views.head? := by
  cases views <;> rfl

theorem nextView_append {l r : List Oid} {v : Oid} (h : v ∉ l) :
    nextView (l ++ v :: r) (some v) = r.head? := by
  induction l with
  | nil => simp [nextView]
  | cons u l ih =>
    obtain ⟨hu, hl⟩ : v ≠ u ∧ v ∉ l := by simpa using h
    rw [List.cons_append, nextView, if_neg hu, ih hl]

/-- **The loop** visits each view of a list of different views once, in order. -/
theorem viewLoop_eq_overViews (search : Oid → OidSearchRes → AgentM σ OidSearchRes)
    (found : Oid → OidSearchRes → Bool) (oid : Oid) (hnd : views.Nodup) (ret : OidSearchRes) :
    viewLoop search found views oid (views.length + 1) none ret =
      overViews search found oid views ret := by
  have hloop : ∀ (r l : List Oid) (fuel : ℕ) (view : Option Oid) (ret : OidSearchRes),
      views = l ++ r → nextView views view = r.head? → r.length < fuel →
        viewLoop search found views oid fuel view ret = overViews search found oid r ret := by
    intro r
    induction r with
    | nil =>
      intro l fuel view ret _ hnext hfuel
      obtain ⟨fuel, rfl⟩ := Nat.exists_eq_add_of_lt hfuel
      simp only [viewLoop, hnext, overViews, List.head?_nil]
    | cons v r ih =>
      intro l fuel view ret hsplit hnext hfuel
      obtain ⟨fuel, rfl⟩ : ∃ f, fuel = f + 1 := ⟨fuel - 1, by omega⟩
      have hrest : nextView views (some v) = r.head? := by
        rw [hsplit] at hnd ⊢
        exact nextView_append fun hv => (List.nodup_append.mp hnd).2.2 v hv v (by simp) rfl
      have hgo := fun ret => ih (l ++ [v]) fuel (some v) ret (by simp [hsplit]) hrest
        (by simp at hfuel; omega)
      simp only [viewLoop, hnext, overViews, List.head?_cons, hgo]
  exact hloop views [] _ none ret rfl (nextView_none views) (by omega)

/-- What holds behind the loop, from what holds behind the search in each view: `P` before it, `Q`
after it. -/
theorem viewLoop_ensures {search : Oid → OidSearchRes → AgentM σ OidSearchRes}
    {found : Oid → OidSearchRes → Bool} {oid : Oid} {P Q : OidSearchRes → Prop}
    (hsearch : ∀ view ret, P ret → Traced.Ensures (search view ret) Q) (hQP : ∀ ret, Q ret → P ret)
    (hoid : ∀ ret, Q ret → Q { ret with oid := oid }) {ret : OidSearchRes} (hret : P ret)
    (hnil : views = [] → Q { ret with oid := oid }) (fuel : ℕ) :
    Traced.Ensures (viewLoop search found views oid fuel none ret) Q := by
  have hloop : ∀ (fuel : ℕ) (view : Option Oid) {ret : OidSearchRes}, P ret →
      (nextView views view = none → Q { ret with oid := oid }) →
      Traced.Ensures (viewLoop search found views oid fuel view ret) Q := by
    intro fuel
    induction fuel with
    | zero => exact fun _ _ _ _ => .abort
    | succ fuel ih =>
      intro view ret hP hlast
      simp only [viewLoop]
      cases hnext : nextView views view with
      | none => exact .pure (hlast hnext)
      | some v =>
        refine (hsearch v ret hP).bind_of fun r hr => ?_
        split
        · exact .pure hr
        · exact ih _ (hQP r hr) fun _ => hoid r hr
  refine hloop fuel none hret fun hnone => hnil ?_
  rwa [nextView_none, List.head?_eq_none_iff] at hnone

/-! ### The lists of a principal -/

/-- The user of a datagram is one of the users of the agent. -/
def KnownUser (ag : Agent σ) (sdg : SnmpDatagram) : Prop :=
  ∀ u, sdg.user = some u → u ∈ ag.views.users

theorem principalViews_of_lists {I : List Oid → Prop} (hl : ViewState.Lists I ag.views)
    (hu : KnownUser ag sdg) {aces : MibAces} (h : principalViews ag.views sdg aces = some views) :
    I views := by
  unfold principalViews at h
  split at h
  · obtain ⟨u, hsome, rfl⟩ := Option.map_eq_some_iff.mp h
    cases aces with
    | read => exact (hl.user u (hu u hsome)).1
    | write => exact (hl.user u (hu u hsome)).2
  · obtain ⟨c, hsome, rfl⟩ := Option.map_eq_some_iff.mp h
    have hc := List.mem_of_find?_eq_some hsome
    cases aces with
    | read => exact (hl.community c hc).1
    | write => exact (hl.community c hc).2

/-- `mib_getnext` of a known principal, over the list of its views. -/
theorem mibGetnext_eq (hnd : views.Nodup) (hp : principalViews ag.views sdg .read = some views)
    (oid : Oid) (ret : OidSearchRes) :
    mibGetnext ag sdg oid ret =
      overViews (searchNext ag oid) foundNext oid views (authenStep sdg ret) := by
  simp only [mibGetnext, readAccess, hp]
  exact viewLoop_eq_overViews _ _ oid hnd _

/-- `mib_get` of a known principal, over the list of its views. -/
theorem mibGet_eq (hnd : views.Nodup) (hp : principalViews ag.views sdg .read = some views)
    (oid : Oid) (ret : OidSearchRes) :
    mibGet ag sdg oid ret =
      overViews (searchExact ag oid) (foundExact oid) oid views (authenStep sdg ret) := by
  simp only [mibGet, readAccess, hp]
  exact viewLoop_eq_overViews _ _ oid hnd _

@[simp] theorem authenStep_request (sdg : SnmpDatagram) (ret : OidSearchRes) :
    (authenStep sdg ret).request = ret.request := by
  unfold authenStep
  split <;> rfl

@[simp] theorem authenStep_var (sdg : SnmpDatagram) (ret : OidSearchRes) :
    (authenStep sdg ret).var = ret.var := by
  unfold authenStep
  split <;> rfl

/-! ### GETNEXT over all views -/

/-- The outcome of GETNEXT over a non-empty list of views: the least instance of the first
view that has one to offer, or `END_OF_MIB_VIEW` when none has. -/
def ViewsOutcome (S : Oid → Set Oid) (Ans : Oid → LuaVal → UInt8 → Prop) (orig : Oid)
    (views : List Oid) (r : OidSearchRes) : Prop :=
  r.request = .getnext ∧ r.errStat = 0 ∧
    ((∃ l v rest val tag, views = l ++ v :: rest ∧ (∀ u ∈ l, S u = ∅) ∧ IsLeast (S v) r.oid ∧
        Ans r.oid val tag ∧ asn1TagCopied tag = true ∧ r.var.Holds val tag) ∨
      ((∀ u ∈ views, S u = ∅) ∧ r.oid = orig ∧ r.var.tag = asn1TagEndOfMibView))

theorem ne_endOfMibView_of_copied {tag : UInt8} (h : asn1TagCopied tag = true) :
    tag ≠ asn1TagEndOfMibView := by
  rintro rfl
  exact absurd h (by decide)

/-- **GETNEXT over all views**, for handlers that enumerate their instances. -/
theorem getnextViews_spec {d : ℕ} (hwf : ag.root.Wf d) {I : Int → Set Oid}
    {Ans : Int → Oid → LuaVal → UInt8 → Prop} (henum : Enumerates ag.handlers ag.root I Ans)
    (orig : Oid) (hne : views ≠ [])
    (hprobe : ∀ v ∈ views, ∀ ret w, ∃ r w', viewProbe ag.handlers ag.root v ret w = (some r, w'))
    (ret : OidSearchRes) (hret : ret.request = .getnext) (w : World Event σ) :
    ∃ r w', overViews (searchNext ag orig) foundNext orig views ret w = (some r, w') ∧
      ViewsOutcome (fun v => nextSet ag.root I v orig) (treeAns ag.root Ans) orig views r := by
  induction views generalizing ret w with
  | nil => exact absurd rfl hne
  | cons v views ih =>
    obtain ⟨r, w₁, hrun, hreq, herr, hout⟩ := mibTreeSearchNext_spec hwf henum v orig
      ret hret w fun _ => hprobe v (by simp) ret w
    rw [overViews, searchNext, Traced.bind_eq_of_some hrun]
    rcases hout with ⟨val, tag, hleast, hans, hcop, hholds⟩ | ⟨hempty, hoid, htag⟩
    · have hfound : foundNext v r = true := by
        have := ne_endOfMibView_of_copied hcop
        simpa [foundNext, hholds.1] using this
      rw [if_pos hfound]
      exact ⟨r, w₁, rfl, hreq, herr, .inl ⟨[], v, views, val, tag, rfl, by simp, hleast,
        hans, hcop, hholds⟩⟩
    · have hfound : ¬ foundNext v r = true := by simp [foundNext, htag]
      rw [if_neg hfound]
      by_cases hlast : views = []
      · subst hlast
        refine ⟨_, w₁, rfl, hreq, herr, .inr ⟨?_, rfl, htag⟩⟩
        simpa using hempty
      · obtain ⟨r', w₂, hrun', hreq', herr', hout'⟩ := ih hlast
          (fun u hu => hprobe u (by simp [hu])) r hreq w₁
        refine ⟨r', w₂, hrun', hreq', herr', ?_⟩
        rcases hout' with ⟨l, u, rest, val, tag, rfl, hl, hrest⟩ | ⟨hall, hrest⟩
        · refine .inl ⟨v :: l, u, rest, val, tag, rfl, ?_, hrest⟩
          intro u' hu'
          rcases List.mem_cons.mp hu' with rfl | hu'
          · exact hempty
          · exact hl u' hu'
        · refine .inr ⟨?_, hrest⟩
          intro u' hu'
          rcases List.mem_cons.mp hu' with rfl | hu'
          · exact hempty
          · exact hall u' hu'

end SmithSnmp
