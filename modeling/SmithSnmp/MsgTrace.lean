import SmithSnmp.MsgViews

/-!
# Handler Calls of a Request

Which handlers the request processors can call, and which values can get into a response,
for arbitrary handlers. Every function has one lemma, over a property `E` of the events
and a property `R` of the result; `snmpRequestDispatch_contained` and `quiet_of_not_reached`
are put together from them.

## Main results

* `mibTreeSearch_each`, `runQueries_each`, `searchNext_each`: the searches in one view.
* `overViews_each`: the loop over the views.
* `mibGet_each`, `mibGetnext_each`: reads of one varbind.
* `readLoop_each`, `bulkgetLoop_each`: the loops over the varbinds of GET, GETNEXT and GETBULK.
-/

namespace SmithSnmp

open List Lib MibNode Traced

variable {σ : Type}

variable {h : Handlers σ} {ret : OidSearchRes} {root : MibNode} {d : ℕ} {view oid orig : Oid}
  {E : Event → Prop} {ag : Agent σ} {views : List Oid} {sdg sdg₀ : SnmpDatagram}
  {G Cov : Oid → Prop}

/-! ### Searches in one view -/

theorem mibInstanceSearch_spec {path : Oid} {Q : Option OidSearchRes → List Event → Prop}
    (hQ : ∀ st, Q (takeReply path ret (h.call ret.callback ret.request ret.instId
        (if ret.request = .set then some (luaPush ret.var) else none) st).1)
      [.call ret.request ret.callback (path ++ ret.instId)]) :
    Spec (mibInstanceSearch h path ret) Q := by
  intro w
  rw [mibInstanceSearch_apply]
  exact ⟨_, rfl, hQ w.state⟩

/-- GET or SET of the OID reaches a handler in the view: the view covers the OID, and an
instance node lies strictly above it. -/
def Reaches (root : MibNode) (view oid : Oid) : Prop :=
  view <+: oid ∧ ∃ p callback, (p, callback) ∈ registered root ∧ p <+: oid ∧ p ≠ oid

/-- Where GET or SET reaches a handler, it is called for the OID. -/
theorem mibTreeSearch_of_reaches (hwf : root.Wf d) (hreach : Reaches root view oid) :
    ∃ p callback x, oid = p ++ x ∧ x ≠ [] ∧ (p, callback) ∈ registered root ∧
      ∀ ret : OidSearchRes, mibTreeSearch h root view oid ret =
        (mibInstanceSearch h p { ret with oid := oid, errStat := 0, instId := x,
                                          callback := callback } >>=
          fun r => pure (some (.inst callback), r)) := by
  obtain ⟨hcov, p, callback, hreg, ⟨x, rfl⟩, hne⟩ := hreach
  have hpos : ¬ oidCover view (p ++ x) ≤ 0 :=
    not_le.mpr ((oidCover_pos_iff view (p ++ x)).mpr hcov)
  have hx : x ≠ [] := fun h0 => hne (by rw [h0, append_nil])
  have hwalk := mibTreeWalk_registered hwf hreg x
  refine ⟨p, callback, x, rfl, hx, hreg, fun ret => ?_⟩
  cases x with
  | nil => exact absurd rfl hx
  | cons y rest =>
    have htake : (p ++ y :: rest).take ((p ++ y :: rest).length - (y :: rest).length) = p := by
      simp
    simp only [mibTreeSearch, hpos, if_false, hwalk, htake]

/-- Where GET or SET reaches no handler, the tag is invalid. -/
theorem mibTreeSearch_of_not_reaches (hwf : root.Wf d) (hno : ¬ Reaches root view oid)
    (ret : OidSearchRes) :
    ∃ node instId tag, asn1TagValid tag = false ∧ mibTreeSearch h root view oid ret =
      pure (node, { ret with oid := oid, errStat := 0, instId := instId,
                             var := { ret.var with tag := tag } }) := by
  unfold mibTreeSearch
  dsimp only
  split
  · exact ⟨_, _, _, rfl, rfl⟩
  · next hcov =>
      split
      · exact ⟨_, _, _, rfl, rfl⟩
      · exact ⟨_, _, _, rfl, rfl⟩
      · next callback x rest hwalk =>
          obtain ⟨p, ho, hreg⟩ := mibTreeWalk_inst hwf hwalk
          refine absurd ⟨(oidCover_pos_iff view oid).mp (not_le.mp hcov), p, callback, hreg,
            ho ▸ prefix_append p _, fun he => ?_⟩ hno
          rw [he] at ho
          exact absurd (self_eq_append_right.mp ho) (by simp)

theorem mibTreeSearch_spec (hwf : root.Wf d)
    {Q : Option (Option MibNode × OidSearchRes) → List Event → Prop}
    (hmiss : ∀ node instId tag, asn1TagValid tag = false →
      Q (some (node, { ret with oid := orig, errStat := 0, instId := instId,
                                var := { ret.var with tag := tag } })) [])
    (hcall : Reaches root view orig → ∀ p callback x, orig = p ++ x →
      (p, callback) ∈ registered root → ∀ st,
        Q ((takeReply p { ret with oid := orig, errStat := 0, instId := x,
                                   callback := callback }
            (h.call callback ret.request x
              (if ret.request = .set then some (luaPush ret.var) else none) st).1).map
                fun r => (some (.inst callback), r))
          [.call ret.request callback orig]) : Spec (mibTreeSearch h root view orig ret) Q := by
  by_cases hreach : Reaches root view orig
  · obtain ⟨p, callback, x, ho, -, hreg, heq⟩ := mibTreeSearch_of_reaches (h := h) hwf hreach
    rw [heq]
    refine Spec.bind (P := fun r new => Q (r.map fun r => (some (.inst callback), r)) new)
      (mibInstanceSearch_spec fun st => ?_) (fun a l ha => ?_) fun l hl => hl
    · dsimp only
      rw [← ho]
      exact hcall hreach p callback x ho hreg st
    · refine Spec.pure ?_
      rw [append_nil]
      exact ha
  · obtain ⟨node, instId, tag, htag, heq⟩ := mibTreeSearch_of_not_reaches (h := h) hwf hreach ret
    rw [heq]
    exact Spec.pure (hmiss node instId tag htag)

/-- The same for a property of every event. -/
theorem mibTreeSearch_each (hwf : root.Wf d) {R : Option MibNode × OidSearchRes → Prop}
    (hmiss : ∀ node instId tag, asn1TagValid tag = false →
      R (node, { ret with oid := orig, errStat := 0, instId := instId,
                          var := { ret.var with tag := tag } }))
    (hcall : Reaches root view orig → ∀ p callback x, orig = p ++ x →
      (p, callback) ∈ registered root → E (.call ret.request callback orig) ∧
        ∀ st r, takeReply p { ret with oid := orig, errStat := 0, instId := x,
                                       callback := callback }
          (h.call callback ret.request x
            (if ret.request = .set then some (luaPush ret.var) else none) st).1 = some r →
          R (some (.inst callback), r)) : Spec (mibTreeSearch h root view orig ret) (Each E R) := by
  refine mibTreeSearch_spec hwf ?_ ?_
  · intro node instId tag htag
    exact ⟨by simp, by rintro _ ⟨⟩; exact hmiss node instId tag htag⟩
  · intro hreach p callback x ho hreg st
    obtain ⟨hE, hR⟩ := hcall hreach p callback x ho hreg
    refine ⟨by simpa using hE, fun a ha => ?_⟩
    obtain ⟨r, hr, rfl⟩ := Option.map_eq_some_iff.mp ha
    exact hR st r hr

theorem runQueries_each {R : OidSearchRes → Prop} {qs : List Query}
    (hE : ∀ q ∈ qs, E (.call .getnext q.callback (q.path ++ q.suffix)))
    (hend : ∀ ret : OidSearchRes, ret.request = .getnext → R (endOfMibView orig ret))
    (hacc : ∀ q ∈ qs, ∀ (ret : OidSearchRes) st r, ret.request = .getnext →
      takeReply q.path { ret with instId := q.suffix, callback := q.callback }
        (h.call q.callback .getnext q.suffix none st).1 = some r →
      asn1TagValid r.var.tag = true → oidCover view (q.path ++ r.instId) ≠ 0 →
      R { r with oid := q.path ++ r.instId }) (ret : OidSearchRes) (hret : ret.request = .getnext) :
    Spec (runQueries h view orig qs ret) (Each E R) := by
  induction qs generalizing ret with
  | nil => exact Spec.each_pure (hend ret hret)
  | cons q qs ih =>
    have hgo := ih (fun q' hq' => hE q' (by simp [hq']))
      (fun q' hq' => hacc q' (by simp [hq']))
    rw [runQueries]
    refine Spec.each_bind (R := fun r => r.request = .getnext ∧
      (asn1TagValid r.var.tag = true → oidCover view (q.path ++ r.instId) ≠ 0 →
        R { r with oid := q.path ++ r.instId })) (mibInstanceSearch_spec fun st => ⟨?_, ?_⟩) ?_
    · simpa [hret] using hE q (by simp)
    · intro r hr
      refine ⟨(takeReply_eq_some hr).1.trans hret, hacc q (by simp) ret st r hret ?_⟩
      simpa [hret] using hr
    · rintro r ⟨hreq, hr⟩
      split
      · next hval =>
          dsimp only
          split
          · exact Spec.each_abort
          · split
            · exact hgo _ hreq
            · next hcov => exact Spec.each_pure (hr hval hcov)
      · exact hgo r hreq

theorem searchNext_each (hwf : ag.root.Wf d) {R : OidSearchRes → Prop}
    (hread : ∀ callback o, E (.call .get callback o) ∧ E (.call .getnext callback o))
    (hend : ∀ ret : OidSearchRes, ret.request = .getnext → R (endOfMibView orig ret))
    (hacc : Entered view orig → ∀ q ∈ nextQueries ag.root view orig,
      ∀ (ret : OidSearchRes) st r, ret.request = .getnext →
      takeReply q.path { ret with instId := q.suffix, callback := q.callback }
        (ag.handlers.call q.callback .getnext q.suffix none st).1 = some r →
      asn1TagValid r.var.tag = true → oidCover view (q.path ++ r.instId) ≠ 0 →
      R { r with oid := q.path ++ r.instId }) (ret : OidSearchRes) (hret : ret.request = .getnext) :
    Spec (searchNext ag orig view ret) (Each E R) := by
  rw [searchNext, mibTreeSearchNext_eq ag.handlers hwf]
  split
  · next hent =>
      refine Spec.each_bind (R := fun r => r.request = .getnext) ?_ fun r hr => ?_
      · refine Spec.each_bind (R := fun _ => True) (mibTreeSearch_each hwf (by simp) ?_)
          fun r _ => Spec.each_pure rfl
        intro _ p callback x _ _
        exact ⟨(hread callback view).1, by simp⟩
      · exact runQueries_each (fun q _ => (hread _ _).2) hend (hacc hent) _ hr
  · exact Spec.each_pure (hend ret hret)

/-! ### The loop over the views -/

/-- The loop over the views, from what holds of the search in each of them: `P` before it,
`Q` after it. A view behind one that is `ahead` of the OID is not searched. -/
theorem overViews_each {search : Oid → OidSearchRes → AgentM σ OidSearchRes}
    {found : Oid → OidSearchRes → Bool} {P Q : OidSearchRes → Prop} (ahead : Oid → Prop)
    (hfound : ∀ v r, found v r = false → ¬ ahead v)
    (hsearch : ∀ l v r, views = l ++ v :: r → (∀ u ∈ l, ¬ ahead u) →
      ∀ ret, P ret → Spec (search v ret) (Each E Q)) (hQP : ∀ ret, Q ret → P ret)
    (hoid : ∀ ret, Q ret → Q { ret with oid := oid }) (ret : OidSearchRes) (hret : P ret)
    (hnil : views = [] → Q { ret with oid := oid }) :
    Spec (overViews search found oid views ret) (Each E Q) := by
  induction views generalizing ret with
  | nil => exact Spec.each_pure (hnil rfl)
  | cons v views ih =>
    rw [overViews]
    refine Spec.each_bind (hsearch [] v views rfl (by simp) ret hret) fun r hr => ?_
    split
    · exact Spec.each_pure hr
    · next hf =>
        have hv : ¬ ahead v := hfound v r (Bool.eq_false_iff.mpr hf)
        refine ih (fun l u rest hsplit hl => ?_) r (hQP r hr) fun _ => hoid r hr
        refine hsearch (v :: l) u rest (by rw [hsplit, cons_append]) ?_
        intro u' hu'
        rcases mem_cons.mp hu' with rfl | hu'
        · exact hv
        · exact hl u' hu'

/-! ### Principals -/

/-- What a datagram tells about its sender. -/
def SnmpDatagram.sender (sdg : SnmpDatagram) :
    Int32 × Option MibUser × List UInt8 × List UInt8 × UInt8 :=
  (sdg.version, sdg.user, sdg.contextName, sdg.msgFlags, sdg.authErr)

/-- The views that the search of a principal goes through; none for an unknown one. -/
def viewsOf (ag : Agent σ) (sdg : SnmpDatagram) (aces : MibAces) : List Oid :=
  (principalViews ag.views sdg aces).getD []

theorem viewsOf_congr {sdg' : SnmpDatagram} (h : sdg'.sender = sdg.sender) (aces : MibAces) :
    viewsOf ag sdg' aces = viewsOf ag sdg aces := by
  simp only [SnmpDatagram.sender, Prod.mk.injEq] at h
  obtain ⟨hver, huser, hname, -, -⟩ := h
  simp only [viewsOf, principalViews, hver, huser, hname]

/-- The views of a reachable agent do not cover each other. -/
theorem viewsOf_antichain {ok : Oid → Prop} (hr : ag.views.Reachable ok) (hu : KnownUser ag sdg)
    (aces : MibAces) : Antichain (viewsOf ag sdg aces) := by
  unfold viewsOf
  rcases hp : principalViews ag.views sdg aces with _ | views
  · exact List.Pairwise.nil
  · exact principalViews_of_lists hr.antichain hu hp

theorem KnownUser.congr {sdg' : SnmpDatagram} (hu : KnownUser ag sdg)
    (h : sdg'.sender = sdg.sender) :
    KnownUser ag sdg' := by
  simp only [SnmpDatagram.sender, Prod.mk.injEq] at h
  intro u hsome
  exact hu u (h.2.1 ▸ hsome)

@[simp] theorem readAccess_views (ag : Agent σ) (sdg : SnmpDatagram) (ret : OidSearchRes) :
    (readAccess ag sdg ret).1 = viewsOf ag sdg .read := by
  unfold readAccess viewsOf
  split <;> simp_all

@[simp] theorem readAccess_request (ag : Agent σ) (sdg : SnmpDatagram) (ret : OidSearchRes) :
    (readAccess ag sdg ret).2.request = ret.request := by
  unfold readAccess
  split <;> simp

@[simp] theorem readAccess_var (ag : Agent σ) (sdg : SnmpDatagram) (ret : OidSearchRes) :
    (readAccess ag sdg ret).2.var = ret.var := by
  unfold readAccess
  split <;> simp

/-- `mib_get` over the list of the read views, which is empty for an unknown principal. -/
theorem mibGet_eq_overViews (hnd : (viewsOf ag sdg .read).Nodup) (oid : Oid) (ret : OidSearchRes) :
    mibGet ag sdg oid ret = overViews (searchExact ag oid) (foundExact oid) oid
      (viewsOf ag sdg .read) (readAccess ag sdg ret).2 := by
  rw [← readAccess_views ag sdg ret] at hnd ⊢
  exact viewLoop_eq_overViews _ _ oid hnd _

/-- `mib_getnext` over the list of the read views. -/
theorem mibGetnext_eq_overViews (hnd : (viewsOf ag sdg .read).Nodup) (oid : Oid)
    (ret : OidSearchRes) :
    mibGetnext ag sdg oid ret = overViews (searchNext ag oid) foundNext oid
      (viewsOf ag sdg .read) (readAccess ag sdg ret).2 := by
  rw [← readAccess_views ag sdg ret] at hnd ⊢
  exact viewLoop_eq_overViews _ _ oid hnd _

/-! ### Reads -/

/-- What is allowed on a read: no call of SET, no call at all without views, and values in
the response only for OIDs that satisfy `Cov`. -/
def Event.ReadOk (views : List Oid) (Cov : Oid → Prop) : Event → Prop
  | .call request _ _ => request ≠ .set ∧ views ≠ []
  | .out _ src => ∀ o, src = some o → Cov o

/-- The search result before a read: a principal without views has got no value. -/
def ReadPre (request : Request) (views : List Oid) (ret : OidSearchRes) : Prop :=
  ret.request = request ∧ (views = [] → ret.var.src = none)

/-- The search result after a read: the OID satisfies `G`, and a value comes from an OID
that satisfies `Cov`. -/
def ReadPost (request : Request) (views : List Oid) (G Cov : Oid → Prop)
    (ret : OidSearchRes) : Prop :=
  ReadPre request views ret ∧ G ret.oid ∧
    (asn1TagValid ret.var.tag = true → ∀ o, ret.var.src = some o → Cov o)

theorem readViews_each {search : Oid → OidSearchRes → AgentM σ OidSearchRes}
    {found : Oid → OidSearchRes → Bool} {request : Request} (ahead : Oid → Prop) (hG : G oid)
    (hfound : ∀ v r, found v r = false → ¬ ahead v)
    (hsearch : ∀ l v r, viewsOf ag sdg .read = l ++ v :: r → (∀ u ∈ l, ¬ ahead u) →
      ∀ ret, ret.request = request → Spec (search v ret) (Each (Event.ReadOk (viewsOf ag sdg .read) Cov)
        fun r => r.request = request ∧ G r.oid ∧
          (asn1TagValid r.var.tag = true → ∀ o, r.var.src = some o → Cov o)))
    (hnd : (viewsOf ag sdg .read).Nodup) (ret : OidSearchRes)
    (hret : ReadPre request (viewsOf ag sdg .read) ret) :
    Spec (viewLoop search found (readAccess ag sdg ret).1 oid
        ((readAccess ag sdg ret).1.length + 1) none (readAccess ag sdg ret).2)
      (Each (Event.ReadOk (viewsOf ag sdg .read) Cov)
        (ReadPost request (viewsOf ag sdg .read) G Cov)) := by
  rw [readAccess_views, viewLoop_eq_overViews _ _ oid hnd]
  refine overViews_each (P := fun r => r.request = request) ahead hfound ?_ ?_ ?_ _ ?_ ?_
  · intro l v r hsplit hl ret' hret'
    refine (hsearch l v r hsplit hl ret' hret').each_mono (fun _ h => h) fun a ha => ?_
    exact ⟨⟨ha.1, fun h => by simp [hsplit] at h⟩, ha.2⟩
  · exact fun r hr => hr.1.1
  · exact fun r hr => ⟨hr.1, hG, hr.2.2⟩
  · simpa using hret.1
  · intro hnil
    refine ⟨⟨by simpa using hret.1, fun h => by simpa using hret.2 h⟩, hG, fun _ o ho => ?_⟩
    simp [hret.2 hnil] at ho

/-- Whether `mib_get` or `mib_set` stops at a view because the OID is ahead of it. -/
def Ahead (oid view : Oid) : Prop := oidCmp oid view < 0

theorem not_ahead_of_not_found {r : OidSearchRes} (h : foundExact oid view r = false) :
    ¬ Ahead oid view := by
  simp only [foundExact, Bool.or_eq_false_iff, decide_eq_false_iff_not] at h
  exact h.2

/-- `mib_get`, from what a handler can give in a view where the OID reaches it. -/
theorem mibGet_each (hwf : ag.root.Wf d) (hnd : (viewsOf ag sdg .read).Nodup) (hG : G oid)
    (hcov : ∀ l v r, viewsOf ag sdg .read = l ++ v :: r → (∀ u ∈ l, ¬ Ahead oid u) →
      Reaches ag.root v oid → ∀ p callback x, oid = p ++ x → (p, callback) ∈ registered ag.root →
        ∀ (ret : OidSearchRes) st r, ret.request = .get → ret.instId = x →
          takeReply p ret (ag.handlers.call callback .get x none st).1 = some r →
            asn1TagValid r.var.tag = true → ∀ o, r.var.src = some o → Cov o)
    (hret : ReadPre .get (viewsOf ag sdg .read) ret) :
    Spec (mibGet ag sdg oid ret) (Each (Event.ReadOk (viewsOf ag sdg .read) Cov)
      (ReadPost .get (viewsOf ag sdg .read) G Cov)) := by
  refine readViews_each (Ahead oid) hG (fun v r => not_ahead_of_not_found) ?_ hnd ret hret
  intro l v r hsplit hl ret' hret'
  refine Spec.each_bind (R := fun r => r.2.request = .get ∧ G r.2.oid ∧
    (asn1TagValid r.2.var.tag = true → ∀ o, r.2.var.src = some o → Cov o))
    (mibTreeSearch_each hwf ?_ ?_) fun r hr => Spec.each_pure hr
  · exact fun node instId tag htag => ⟨hret', hG, fun h => by simp [htag] at h⟩
  · intro hreach p callback x ho hreg
    refine ⟨⟨by simp [hret'], by simp [hsplit]⟩, fun st r' hrep => ?_⟩
    obtain ⟨hreq, hoid⟩ := takeReply_eq_some hrep
    simp only [hret', reduceCtorEq, if_false] at hrep
    exact ⟨hreq.trans hret', by rw [hoid.1]; exact hG,
      hcov l v r hsplit hl hreach p callback x ho hreg _ st r' (by rfl) (by rfl) hrep⟩

/-- `mib_getnext`, from what a handler can give in a view that is entered. -/
theorem mibGetnext_each (hwf : ag.root.Wf d) (hnd : (viewsOf ag sdg .read).Nodup) (hG : G oid)
    (hcov : ∀ v ∈ viewsOf ag sdg .read, Entered v oid → ∀ q ∈ nextQueries ag.root v oid,
      ∀ (ret : OidSearchRes) st r, ret.request = .getnext →
        takeReply q.path { ret with instId := q.suffix, callback := q.callback }
          (ag.handlers.call q.callback .getnext q.suffix none st).1 = some r →
        asn1TagValid r.var.tag = true → oidCover v (q.path ++ r.instId) ≠ 0 →
          G (q.path ++ r.instId) ∧ ∀ o, r.var.src = some o → Cov o)
    (hret : ReadPre .getnext (viewsOf ag sdg .read) ret) :
    Spec (mibGetnext ag sdg oid ret) (Each (Event.ReadOk (viewsOf ag sdg .read) Cov)
      (ReadPost .getnext (viewsOf ag sdg .read) G Cov)) := by
  refine readViews_each (fun _ => False) hG (by simp) ?_ hnd ret hret
  intro l v r hsplit _ ret' hret'
  have hne : viewsOf ag sdg .read ≠ [] := by simp [hsplit]
  refine searchNext_each hwf (fun _ _ => ⟨⟨by simp, hne⟩, ⟨by simp, hne⟩⟩) ?_ ?_ ret' hret'
  · exact fun ret'' hret'' => ⟨hret'', hG, fun h => absurd h (by simp [endOfMibView]; decide)⟩
  · intro hent q hq ret'' st r' hret'' hrep hval hin
    obtain ⟨hG', hcov'⟩ := hcov v (by simp [hsplit]) hent q hq ret'' st r' hret'' hrep hval hin
    exact ⟨(takeReply_eq_some hrep).1.trans hret'', hG', fun _ => hcov'⟩

/-- Adding a varbind to the response keeps the sender. -/
theorem answer_each {vbInCnt : UInt32} {type : UInt8} {value : List UInt8} {room : ℕ}
    (hE : ∀ vb, E (.out vb (if asn1TagValid ret.var.tag = true then ret.var.src else none))) :
    Spec (answer sdg vbInCnt type value room ret : AgentM σ SnmpDatagram)
      (Each E fun sdg' => sdg'.sender = sdg.sender) := by
  unfold answer addVarBind
  dsimp only
  split
  · exact Spec.each_abort
  · next sdg' vb hsome =>
      obtain ⟨oidLen, -, heq⟩ := Option.map_eq_some_iff.mp hsome
      obtain ⟨rfl, rfl⟩ := Prod.mk.inj heq
      refine Spec.each_bind (R := fun _ => True) ?_ fun _ _ => Spec.each_pure rfl
      exact Spec.emit ⟨by simpa using hE _, by simp⟩

theorem answerRead_each {vbInCnt : UInt32}
    (hret : asn1TagValid ret.var.tag = true → ∀ o, ret.var.src = some o → Cov o) :
    Spec (answerRead sdg vbInCnt ret : AgentM σ SnmpDatagram)
      (Each (Event.ReadOk views Cov) fun sdg' => sdg'.sender = sdg.sender) := by
  unfold answerRead
  split
  · exact Spec.each_abort
  · refine answer_each fun vb o ho => ?_
    split at ho
    · next hval => exact hret hval o ho
    · cases ho

/-- Decoding the value of a request, and what comes next. -/
theorem Spec.loadValue_bind {α : Type} {vb : VarBind} {f : OidSearchRes → AgentM σ α}
    {Q : Option α → List Event → Prop} (hstuck : vb.Stuck → Q none [])
    (hf : ¬ vb.Stuck → ∀ dec, berValueDec vb.value vb.valueType = some dec →
      Spec (f (ret.load vb dec)) Q) : Spec (loadValue vb ret >>= f) Q := by
  rcases SmithSnmp.loadValue_bind vb ret f with ⟨hvb, heq⟩ | ⟨hvb, dec, hdec, heq⟩
  · rw [heq]
    exact Spec.abort (hstuck hvb)
  · rw [heq]
    exact hf hvb dec hdec

/-- A read of one varbind of the sender that keeps to the views, with values from `Cov` only. -/
def ReadsWithin (find : SnmpDatagram → Oid → OidSearchRes → AgentM σ OidSearchRes)
    (sdg₀ : SnmpDatagram) (request : Request) (views : List Oid) (G Cov : Oid → Prop) : Prop :=
  ∀ sdg, sdg.sender = sdg₀.sender → ∀ oid, G oid → ∀ ret, ReadPre request views ret →
    Spec (find sdg oid ret) (Each (Event.ReadOk views Cov) (ReadPost request views G Cov))

/-- **Run lemma for GET and GETNEXT**: the loop over the varbinds, from what holds of one
varbind. It comes to an end when all values are decoded. -/
theorem readLoop_each {find : SnmpDatagram → Oid → OidSearchRes → AgentM σ OidSearchRes}
    {request : Request} (hfind : ReadsWithin find sdg₀ request views G Cov)
    (vbs : List VarBind) (hG : ∀ vb ∈ vbs, G vb.oid) (vbInCnt : UInt32) (sdg : SnmpDatagram)
    (hsdg : sdg.sender = sdg₀.sender) (ret : OidSearchRes) (hret : ReadPre request views ret) :
    Spec (readLoop find vbs vbInCnt sdg ret)
      (Each (Event.ReadOk views Cov) fun _ => ∀ vb ∈ vbs, ¬ vb.Stuck) := by
  induction vbs generalizing vbInCnt sdg ret with
  | nil => exact Spec.each_pure (by simp)
  | cons vb vbs ih =>
    rw [readLoop]
    refine Spec.loadValue_bind (fun _ => ⟨by simp, nofun⟩) fun hvb dec _ => ?_
    refine Spec.each_bind (hfind sdg hsdg vb.oid (hG vb (by simp)) (ret.load vb dec) hret) ?_
    intro r hr
    refine Spec.each_bind (answerRead_each hr.2.2) fun sdg' hsdg' => ?_
    refine (ih (fun vb' hvb' => hG vb' (by simp [hvb'])) _ sdg' (hsdg'.trans hsdg) r
      hr.1).each_mono (fun _ h => h) fun _ h => ?_
    exact forall_mem_cons.mpr ⟨hvb, h⟩

/-- The row of a GETBULK request. -/
theorem bulkgetRow_each (hfind : ReadsWithin (mibGetnext ag) sdg₀ .getnext views G Cov)
    (vbs done : List VarBind) (hG : ∀ vb ∈ vbs, G vb.oid) (hdone : ∀ vb ∈ done, G vb.oid)
    (st : BulkState) (hsdg : st.sdg.sender = sdg₀.sender) (hret : ReadPre .getnext views st.ret) :
    Spec (snmpBulkgetRow ag done vbs st) (Each (Event.ReadOk views Cov) fun st' =>
      ((∀ vb ∈ st'.vbs, G vb.oid) ∧ st'.sdg.sender = sdg₀.sender ∧
        ReadPre .getnext views st'.ret) ∧ ∀ vb ∈ vbs, ¬ vb.Stuck) := by
  induction vbs generalizing done st with
  | nil => exact Spec.each_pure ⟨⟨hdone, hsdg, hret⟩, by simp⟩
  | cons vb vbs ih =>
    rw [snmpBulkgetRow]
    refine Spec.loadValue_bind (fun _ => ⟨by simp, nofun⟩) fun hvb dec _ => ?_
    refine Spec.each_bind (hfind st.sdg hsdg vb.oid (hG vb (by simp)) (st.ret.load vb dec) hret) ?_
    intro r hr
    refine Spec.each_bind (answerRead_each hr.2.2) fun sdg' hsdg' => ?_
    refine (ih _ (fun vb' hvb' => hG vb' (by simp [hvb'])) ?_ _ (hsdg'.trans hsdg)
      hr.1).each_mono (fun _ h => h) fun _ h => ⟨h.1, forall_mem_cons.mpr ⟨hvb, h.2⟩⟩
    intro vb' hvb'
    rcases mem_append.mp hvb' with hvb' | hvb'
    · exact hdone vb' hvb'
    · rw [mem_singleton.mp hvb']
      exact hr.2.1

/-- **Run lemma for GETBULK**: the rows one after the other. -/
theorem bulkgetLoop_each (hfind : ReadsWithin (mibGetnext ag) sdg₀ .getnext views G Cov)
 (repeats : ℕ)
    (st : BulkState) (hG : ∀ vb ∈ st.vbs, G vb.oid) (hsdg : st.sdg.sender = sdg₀.sender)
    (hret : ReadPre .getnext views st.ret) :
    Spec (snmpBulkgetLoop ag repeats st)
      (Each (Event.ReadOk views Cov) fun _ => repeats ≠ 0 → ∀ vb ∈ st.vbs, ¬ vb.Stuck) := by
  induction repeats generalizing st with
  | zero => exact Spec.each_pure (by simp)
  | succ repeats ih =>
    rw [snmpBulkgetLoop]
    refine Spec.each_bind (bulkgetRow_each hfind st.vbs [] hG (by simp) st hsdg hret) ?_
    rintro st' ⟨⟨hG', hsdg', hret'⟩, hvbs⟩
    exact (ih st' hG' hsdg' hret').each_mono (fun _ h => h) fun _ _ _ => hvbs

/-! ### Dispatch -/

/-- The dispatcher, from what holds of the request processors. -/
theorem snmpRequestDispatch_spec {Q : Option (Option SnmpDatagram) → List Event → Prop}
    (hget : sdg.pduHdr.pduType = snmpReqGet →
      Spec (snmpGet ag (markResponse sdg)) fun r new => Q (r.map some) new)
    (hgetnext : sdg.pduHdr.pduType = snmpReqGetnext →
      Spec (snmpGetnext ag (markResponse sdg)) fun r new => Q (r.map some) new)
    (hset : sdg.pduHdr.pduType = snmpReqSet →
      Spec (snmpSet ag (markResponse sdg)) fun r new => Q (r.map some) new)
    (hbulkget : sdg.pduHdr.pduType = snmpReqBulkget →
      Spec (snmpBulkget ag (markResponse sdg)) fun r new => Q (r.map some) new)
    (hnil : Q (some none) []) : Spec (snmpRequestDispatch ag sdg) Q := by
  rw [snmpRequestDispatch]
  split
  · next h => exact Spec.map (hget h)
  · split
    · next h => exact Spec.map (hgetnext h)
    · split
      · next h => exact Spec.map (hset h)
      · split
        · next h => exact Spec.map (hbulkget h)
        · exact Spec.pure hnil

/-- `snmp_get`, from what holds of one varbind. -/
theorem snmpGet_each (hfind : ReadsWithin (mibGet ag) sdg .get views G Cov)
    (hG : ∀ vb ∈ sdg.vbInList, G vb.oid) :
    Spec (snmpGet ag sdg)
      (Each (Event.ReadOk views Cov) fun _ => ∀ vb ∈ sdg.vbInList, ¬ vb.Stuck) :=
  readLoop_each hfind _ hG _ _ rfl _ ⟨rfl, fun _ => rfl⟩

/-- `snmp_getnext`, from what holds of one varbind. -/
theorem snmpGetnext_each (hfind : ReadsWithin (mibGetnext ag) sdg .getnext views G Cov)
    (hG : ∀ vb ∈ sdg.vbInList, G vb.oid) :
    Spec (snmpGetnext ag sdg)
      (Each (Event.ReadOk views Cov) fun _ => ∀ vb ∈ sdg.vbInList, ¬ vb.Stuck) :=
  readLoop_each hfind _ hG _ _ rfl _ ⟨rfl, fun _ => rfl⟩

/-- `snmp_bulkget`, from what holds of one varbind. -/
theorem snmpBulkget_each (hfind : ReadsWithin (mibGetnext ag) sdg .getnext views G Cov)
    (hG : ∀ vb ∈ sdg.vbInList, G vb.oid) :
    Spec (snmpBulkget ag sdg) (Each (Event.ReadOk views Cov) fun _ =>
      sdg.pduHdr.errIdx.toUInt32.toNat ≠ 0 → ∀ vb ∈ sdg.vbInList, ¬ vb.Stuck) :=
  Spec.each_bind (bulkgetLoop_each hfind _ _ hG rfl ⟨rfl, fun _ => rfl⟩) fun _ h =>
    Spec.each_pure h

/-! ### Writes -/

/-- The OIDs for which handlers are called with SET, in order. -/
def setCalls (log : List Event) : List Oid :=
  log.filterMap fun
    | .call .set _ o => some o
    | _ => none

@[simp] theorem setCalls_append (l r : List Event) :
    setCalls (l ++ r) = setCalls l ++ setCalls r := by
  simp [setCalls]

/-- What holds of `ret_oid` all along a SET: it never takes a value from a handler. -/
def SetInv (ret : OidSearchRes) : Prop := ret.request = .set ∧ ret.var.src = none

/-- A reply to SET leaves the value of the variable alone. -/
theorem SetInv.takeReply {path : Oid} {r : OidSearchRes} {reply : Reply} (h : SetInv ret)
    (hr : takeReply path ret reply = some r) : SetInv r := by
  refine ⟨(takeReply_eq_some hr).1.trans h.1, ?_⟩
  unfold SmithSnmp.takeReply at hr
  split at hr
  · cases hr
    exact h.2
  · split at hr
    · rw [if_pos h.1] at hr
      cases hr
      exact h.2
    · cases hr
      exact h.2

theorem setSearch_spec (hwf : ag.root.Wf d) (hret : SetInv ret) :
    Spec (searchExact ag oid view ret) fun r new =>
      (new = [] ∨ ∃ callback, new = [.call .set callback oid] ∧ Reaches ag.root view oid) ∧
        ∀ r', r = some r' → SetInv r' := by
  refine Spec.bind (P := fun r new => (new = [] ∨ ∃ callback, new = [.call .set callback oid] ∧
    Reaches ag.root view oid) ∧ ∀ r', r = some r' → SetInv r'.2)
    (mibTreeSearch_spec hwf ?_ ?_) ?_ ?_
  · intro node instId tag _
    exact ⟨.inl rfl, by rintro _ ⟨⟩; exact hret⟩
  · intro hreach p callback x ho hreg st
    refine ⟨.inr ⟨callback, by rw [hret.1], hreach⟩, fun r' hr' => ?_⟩
    obtain ⟨r, hr, rfl⟩ := Option.map_eq_some_iff.mp hr'
    have hret' : SetInv { ret with oid := oid, errStat := 0, instId := x,
                                   callback := callback } := hret
    exact hret'.takeReply hr
  · intro a l ha
    refine Spec.pure ?_
    rw [append_nil]
    exact ⟨ha.1, by rintro _ ⟨⟩; exact ha.2 a rfl⟩
  · intro l hl
    exact ⟨hl.1, by simp⟩

theorem setSearch_each (hwf : ag.root.Wf d) (hno : ¬ Reaches ag.root view oid) (hret : SetInv ret) :
    Spec (searchExact ag oid view ret) (Each (fun _ => False) SetInv) := by
  refine (setSearch_spec hwf hret).mono ?_
  rintro r new ⟨rfl | ⟨callback, -, hreach⟩, hr⟩
  · exact ⟨by simp, hr⟩
  · exact absurd hreach hno

theorem setViews_spec (hwf : ag.root.Wf d) (hanti : Antichain views) (ret : OidSearchRes)
    (hret : SetInv ret) :
    Spec (overViews (searchExact ag oid) (foundExact oid) oid views ret) fun r new =>
      (new = [] ∨ ∃ callback, new = [.call .set callback oid] ∧ ∃ v ∈ views, v <+: oid) ∧
        ∀ r', r = some r' → SetInv r' := by
  induction views generalizing ret with
  | nil => exact Spec.pure ⟨.inl rfl, by rintro _ ⟨⟩; exact hret⟩
  | cons v views ih =>
    obtain ⟨hhead, htail⟩ := pairwise_cons.mp hanti
    rw [overViews]
    refine (setSearch_spec hwf hret).bind ?_ ?_
    · rintro a l ⟨hl, ha⟩
      have hset := ha a rfl
      split
      · refine Spec.pure ⟨?_, by rintro _ ⟨⟩; exact hset⟩
        rw [append_nil]
        rcases hl with rfl | ⟨cb, rfl, hreach⟩
        · exact .inl rfl
        · exact .inr ⟨cb, rfl, v, by simp, hreach.1⟩
      · rcases hl with rfl | ⟨cb, rfl, hreach⟩
        · refine (ih htail a hset).mono fun r l' h => ⟨?_, h.2⟩
          rcases h.1 with hnil | ⟨cb, hnew, u, hu, hcov⟩
          · exact .inl hnil
          · exact .inr ⟨cb, hnew, u, by simp [hu], hcov⟩
        · -- the other views do not cover the OID
          have hrest : Spec (overViews (searchExact ag oid) (foundExact oid) oid views a)
              (Each (fun _ => False) SetInv) := by
            refine overViews_each (P := SetInv) (fun _ => False) (by simp) ?_
              (fun _ h => h) (fun _ h => h) a hset fun _ => hset
            intro l u rest hsplit _ ret' hret'
            refine setSearch_each hwf (fun hreach' => ?_) hret'
            exact (hhead u (by simp [hsplit])).not_cover hreach'.1 hreach.1
          refine hrest.mono fun r l' h => ⟨.inr ⟨cb, ?_, v, by simp, hreach.1⟩, h.2⟩
          rw [eq_nil_iff_forall_not_mem.mpr h.1, append_nil]
    · rintro l ⟨hl, -⟩
      rcases hl with rfl | ⟨cb, rfl, hreach⟩
      · exact ⟨.inl rfl, by simp⟩
      · exact ⟨.inr ⟨cb, rfl, v, by simp, hreach.1⟩, by simp⟩

end SmithSnmp
