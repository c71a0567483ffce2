import SmithSnmp.MsgTrace
import SmithSnmp.Walk

/-!
# Requests Stay in the Views

Which handlers a request can call with SET, and of which OIDs it can get values, is
decided in several places: `mib_set` asks for a covering write view first,
`mib_tree_search` refuses an OID outside its view, and `mib_tree_search_next` looks at an
answer only after the handler gave it. The last test lets an OID *above* the view pass as
well; no such OID is ever answered, as the answers lie behind the view OID.

## Main results

* `mibGet_contained`, `mibGetnext_contained`, `setLoop_contained`: the request processors
  one by one.
* `snmpRequestDispatch_contained`: view containment for every request.
-/

namespace SmithSnmp

open Lib MibNode Traced Option

variable {σ : Type}

variable {ret : OidSearchRes} {ag : Agent σ} {d : ℕ} {ok : Oid → Prop} {sdg : SnmpDatagram}
  {log : List Event}

/-- What is asked of handlers on reads: a GETNEXT answer is strictly greater than the suffix
it was asked for, and no error status is reported. -/
structure ReadsAscend (h : Handlers σ) (root : MibNode) : Prop where
  /-- answers to GETNEXT are greater -/
  ascend : ∀ p callback, (p, callback) ∈ registered root → ∀ s st err sub val tag,
    (h.call callback .getnext s none st).1 = .ret err sub val tag →
      asn1TagValid tag = true → s < sub
  /-- reads report no error -/
  noError : ∀ p callback, (p, callback) ∈ registered root → ∀ request, request ≠ .set →
    ∀ s st err sub val tag,
      (h.call callback request s none st).1 = .ret err sub val tag → err = 0

/-- The OID is covered by one of the views. -/
def Covered (views : List Oid) (o : Oid) : Prop := ∃ v ∈ views, v <+: o

/-- A valid tag on a read comes with a value that was copied from the handler. -/
theorem takeReply_valid {path : Oid} {r : OidSearchRes} {reply : Reply}
    (h : takeReply path ret reply = some r) (hval : asn1TagValid r.var.tag = true)
    (hreq : ret.request ≠ .set) (herr : ∀ err sub val tag, reply = .ret err sub val tag → err = 0) :
    ∃ sub val tag, reply = .ret 0 sub val tag ∧ asn1TagValid tag = true ∧
      r.instId = (if ret.request = .getnext then sub else ret.instId) ∧
      r.var.src = some (path ++ r.instId) := by
  cases reply with
  | fail =>
    obtain rfl := some.inj h
    exact absurd hval (show ¬ asn1TagValid asn1TagNoSuchObj = true by decide)
  | ret err sub val tag =>
    obtain rfl := herr err sub val tag rfl
    by_cases htag : asn1TagValid tag = true
    · simp only [takeReply, htag, and_self, if_true, hreq, if_false] at h
      split at h
      · obtain rfl := some.inj h
        exact ⟨sub, val, tag, rfl, htag, rfl, rfl⟩
      · cases h
    · rw [takeReply, if_neg (fun h => htag h.2)] at h
      obtain rfl := some.inj h
      exact absurd hval htag

/-! ### Reads -/

/-- **GETNEXT** of one varbind: values come from OIDs covered by the read views. -/
theorem mibGetnext_contained (hwf : ag.root.Wf d) (hasc : ReadsAscend ag.handlers ag.root)
    (hr : ag.views.Reachable ok) (hu : KnownUser ag sdg) (oid : Oid) (ret : OidSearchRes)
    (hret : ReadPre .getnext (viewsOf ag sdg .read) ret) :
    Spec (mibGetnext ag sdg oid ret)
      (Each (Event.ReadOk (viewsOf ag sdg .read) (Covered (viewsOf ag sdg .read)))
        (ReadPost .getnext (viewsOf ag sdg .read) (fun _ => True)
          (Covered (viewsOf ag sdg .read)))) := by
  refine mibGetnext_each hwf (viewsOf_antichain hr hu .read).nodup trivial ?_ hret
  intro v hv _ q hq ret' st r' hret' hrep hval hcov
  have hreg := nextQueries_registered hwf hq
  obtain ⟨sub, val, tag, hsub, htag, hinst, hsrc⟩ := takeReply_valid hrep hval (by simp [hret'])
    fun err sub val tag h => hasc.noError _ _ hreg .getnext (by simp) _ _ _ _ _ _ h
  simp only [hret', if_true] at hinst
  refine ⟨trivial, fun o ho => ?_⟩
  rw [hsrc, hinst] at ho
  obtain rfl := some.inj ho
  have hlt : q.suffix < sub := hasc.ascend _ _ hreg _ _ _ _ _ _ hsub htag
  rw [hinst] at hcov
  exact ⟨v, hv, (nextQueries_beside hwf hq).cover hlt hcov⟩

/-- **GET** of one varbind: a value comes from the OID itself, covered by a read view. -/
theorem mibGet_contained (hwf : ag.root.Wf d) (hasc : ReadsAscend ag.handlers ag.root)
    (hr : ag.views.Reachable ok) (hu : KnownUser ag sdg) (oid : Oid) (ret : OidSearchRes)
    (hret : ReadPre .get (viewsOf ag sdg .read) ret) :
    Spec (mibGet ag sdg oid ret)
      (Each (Event.ReadOk (viewsOf ag sdg .read) (Covered (viewsOf ag sdg .read)))
        (ReadPost .get (viewsOf ag sdg .read) (fun _ => True)
          (Covered (viewsOf ag sdg .read)))) := by
  refine mibGet_each hwf (viewsOf_antichain hr hu .read).nodup trivial ?_ hret
  intro l v r hsplit _ hreach p callback x ho hreg ret' st r' hret' hinst hrep hval o' ho'
  obtain ⟨sub, val, tag, -, -, hsame, hsrc⟩ := takeReply_valid hrep hval (by simp [hret'])
    fun err sub val tag h => hasc.noError _ _ hreg .get (by simp) _ _ _ _ _ _ h
  simp only [hret', reduceCtorEq, if_false, hinst] at hsame
  rw [hsrc, hsame, ← ho] at ho'
  obtain rfl := some.inj ho'
  exact ⟨v, by simp [hsplit], hreach.1⟩

/-! ### Writes -/

/-- What is allowed on a write: calls of SET for OIDs that satisfy `Cov`, and no value of a
handler in the response. -/
def Event.SetOk (Cov : Oid → Prop) : Event → Prop
  | .call request _ o => request = .set ∧ Cov o
  | .out _ src => src = none

theorem mibSet_eq (hr : ag.views.Reachable ok) (hu : KnownUser ag sdg) (oid : Oid)
    (ret : OidSearchRes) :
    mibSet ag sdg oid ret =
      overViews (searchExact ag oid) (foundExact oid) oid
        (if viewCover (viewsOf ag sdg .write) oid then viewsOf ag sdg .write else [])
        (writeAccess ag sdg oid ret).2 := by
  have hviews : (writeAccess ag sdg oid ret).1 =
      if viewCover (viewsOf ag sdg .write) oid then viewsOf ag sdg .write else [] := by
    unfold writeAccess viewsOf
    rcases principalViews ag.views sdg .write with _ | views
    · simp
    · by_cases hc : viewCover views oid = true <;> simp [hc]
  have hnd : (writeAccess ag sdg oid ret).1.Nodup := by
    rw [hviews]
    split
    · exact (viewsOf_antichain hr hu .write).nodup
    · exact List.nodup_nil
  rw [← hviews]
  exact viewLoop_eq_overViews _ _ oid hnd _

/-- Access control keeps what holds all along a SET. -/
theorem SetInv.writeAccess {oid : Oid} (h : SetInv ret) :
    SetInv (writeAccess ag sdg oid ret).2 := by
  unfold SmithSnmp.writeAccess
  split
  · exact h
  · split
    · exact ⟨by simpa using h.1, by simpa using h.2⟩
    · exact h

/-- **SET** of one varbind: at most one call, for an OID covered by the write views. -/
theorem mibSet_contained (hwf : ag.root.Wf d) (hr : ag.views.Reachable ok) (hu : KnownUser ag sdg)
    (oid : Oid) (ret : OidSearchRes) (hret : SetInv ret) :
    Spec (mibSet ag sdg oid ret) fun r new =>
      (setCalls new).Sublist [oid] ∧
        Each (Event.SetOk (Covered (viewsOf ag sdg .write))) SetInv r new := by
  rw [mibSet_eq hr hu]
  have hanti : Antichain
      (if viewCover (viewsOf ag sdg .write) oid then viewsOf ag sdg .write else []) := by
    split
    · exact viewsOf_antichain hr hu .write
    · exact List.Pairwise.nil
  refine (setViews_spec hwf hanti _ hret.writeAccess).mono ?_
  rintro r new ⟨rfl | ⟨callback, rfl, v, hv, hcov⟩, hr⟩
  · exact ⟨by simp [setCalls], by simp, hr⟩
  · refine ⟨by simp [setCalls], ?_, hr⟩
    rintro e he
    obtain rfl := List.mem_singleton.mp he
    refine ⟨rfl, v, ?_, hcov⟩
    split at hv
    · exact hv
    · exact absurd hv List.not_mem_nil

theorem answerSet_contained {vb : VarBind} {vbInCnt : UInt32} (Cov : Oid → Prop) (hret : SetInv ret) :
    Spec (answerSet sdg vb vbInCnt ret : AgentM σ (SnmpDatagram × OidSearchRes)) fun r new =>
      setCalls new = [] ∧ Each (Event.SetOk Cov)
        (fun r => r.1.sender = sdg.sender ∧ SetInv r.2) r new := by
  have hout : Spec (answerSet sdg vb vbInCnt ret : AgentM σ (SnmpDatagram × OidSearchRes))
      (Each (fun e => ∃ vb, e = .out vb none)
        fun r => r.1.sender = sdg.sender ∧ SetInv r.2) := by
    unfold answerSet
    split
    · exact Spec.each_abort
    · have hret' : SetInv (if ret.errStat = 0 ∧ asn1TagValid ret.var.tag = false then
          { ret with errStat := snmpErrStatNotWritable } else ret) := by
        split <;> exact hret
      refine Spec.each_bind (answer_each fun vb' => ⟨vb', ?_⟩) fun sdg' hsdg' =>
        Spec.each_pure ⟨hsdg', hret'⟩
      rw [hret'.2, ite_self]
  refine hout.mono ?_
  rintro r new ⟨hE, hR⟩
  refine ⟨?_, fun e he => ?_, hR⟩
  · rw [setCalls, List.filterMap_eq_nil_iff]
    intro e he
    obtain ⟨vb', rfl⟩ := hE e he
    rfl
  · obtain ⟨vb', rfl⟩ := hE e he
    rfl

/-- What a SET of the given OIDs leaves in the log: at most one call of SET for each, in
order, and only what is allowed on a write. -/
def SetTrace (Cov : Oid → Prop) (oids : List Oid) (log : List Event) : Prop :=
  (setCalls log).Sublist oids ∧ ∀ e ∈ log, e.SetOk Cov

theorem SetTrace.append {Cov : Oid → Prop} {oids oids' : List Oid} {log' : List Event}
    (h : SetTrace Cov oids log) (h' : SetTrace Cov oids' log') :
    SetTrace Cov (oids ++ oids') (log ++ log') := by
  refine ⟨?_, fun e he => ?_⟩
  · rw [setCalls_append]
    exact h.1.append h'.1
  · exact (List.mem_append.mp he).elim (h.2 e) (h'.2 e)

/-- **Run lemma for SET**: at most one call per varbind, in the order of the varbinds, all
for OIDs covered by the write views. -/
theorem setLoop_contained (hwf : ag.root.Wf d) (hr : ag.views.Reachable ok) {sdg₀ : SnmpDatagram}
    (hu : KnownUser ag sdg₀) (vbs : List VarBind) (vbInCnt : UInt32) (sdg : SnmpDatagram)
    (hsdg : sdg.sender = sdg₀.sender) (ret : OidSearchRes) (hret : SetInv ret) :
    Spec (snmpSetLoop ag vbs vbInCnt sdg ret) fun _ new =>
      SetTrace (Covered (viewsOf ag sdg₀ .write)) (vbs.map (·.oid)) new := by
  induction vbs generalizing vbInCnt sdg ret with
  | nil => exact Spec.pure ⟨by simp [setCalls], by simp⟩
  | cons vb vbs ih =>
    rw [snmpSetLoop]
    refine Spec.loadValue_bind (fun _ => ⟨by simp [setCalls], by simp⟩) fun _ dec _ => ?_
    have hfirst := mibSet_contained hwf hr (hu.congr hsdg) vb.oid (ret.load vb dec) hret
    rw [viewsOf_congr hsdg] at hfirst
    refine hfirst.bind ?_ ?_
    · rintro r l ⟨hl, hE, hR⟩
      have htrace : SetTrace (Covered (viewsOf ag sdg₀ .write)) [vb.oid] l := ⟨hl, hE⟩
      refine (answerSet_contained (Covered (viewsOf ag sdg₀ .write)) (hR r rfl)).bind ?_ ?_
      · rintro ⟨sdg', r'⟩ l' ⟨hl', hE', hR'⟩
        obtain ⟨hsdg', hinv'⟩ := hR' _ rfl
        have htrace' : SetTrace (Covered (viewsOf ag sdg₀ .write)) [] l' :=
          ⟨by rw [hl'], hE'⟩
        refine (ih _ sdg' (hsdg'.trans hsdg) r' hinv').mono fun _ l'' hl'' => ?_
        exact htrace.append (htrace'.append hl'')
      · rintro l' ⟨hl', hE', -⟩
        have htrace' : SetTrace (Covered (viewsOf ag sdg₀ .write)) (vbs.map (·.oid)) l' :=
          ⟨by simp [hl'], hE'⟩
        exact htrace.append htrace'
    · rintro l ⟨hl, hE, -⟩
      exact ⟨hl.trans (by simp), hE⟩

/-! ### Requests -/

/-- What a request may leave in the log: at most one call of SET for each of its varbinds,
calls of SET and values in the response only for OIDs covered by the views, and no call at
all for a principal without views. -/
structure Contained (ag : Agent σ) (sdg : SnmpDatagram) (log : List Event) : Prop where
  /-- at most one SET call per varbind -/
  once : (setCalls log).Sublist (sdg.vbInList.map (·.oid))
  /-- in a read-write view -/
  write : ∀ o ∈ setCalls log, Covered (viewsOf ag sdg .write) o
  /-- values of handlers are in a read view -/
  read : ∀ vb o, Event.out vb (some o) ∈ log → Covered (viewsOf ag sdg .read) o
  /-- no views, no calls -/
  silent : viewsOf ag sdg .read = [] → viewsOf ag sdg .write = [] →
    ∀ request callback o, Event.call request callback o ∉ log

theorem Contained.of_read
    (h : ∀ e ∈ log, e.ReadOk (viewsOf ag sdg .read) (Covered (viewsOf ag sdg .read))) :
    Contained ag sdg log := by
  have hnil : setCalls log = [] := by
    rw [setCalls, List.filterMap_eq_nil_iff]
    intro e he
    have hok := h e he
    rcases e with ⟨_ | _ | _, callback, o⟩ | ⟨vb, src⟩
    · rfl
    · rfl
    · exact absurd rfl hok.1
    · rfl
  exact ⟨by simp [hnil], by simp [hnil], fun vb o he => h _ he o rfl,
    fun hro _ request callback o he => (h _ he).2 hro⟩

theorem Contained.of_set
    (h : SetTrace (Covered (viewsOf ag sdg .write)) (sdg.vbInList.map (·.oid)) log) :
    Contained ag sdg log := by
  refine ⟨h.1, fun o ho => ?_, fun vb o he => ?_, fun _ hrw request callback o he => ?_⟩
  · obtain ⟨e, he, heq⟩ := List.mem_filterMap.mp ho
    have hok := h.2 e he
    rcases e with ⟨_ | _ | _, callback, o'⟩ | ⟨vb, src⟩
    · cases heq
    · cases heq
    · obtain rfl := some.inj heq
      exact hok.2
    · cases heq
  · have hok : some o = none := h.2 _ he
    cases hok
  · obtain ⟨-, v, hv, -⟩ : request = .set ∧ Covered (viewsOf ag sdg .write) o := h.2 _ he
    rw [hrw] at hv
    exact absurd hv List.not_mem_nil

theorem viewsOf_unregistered {aces : MibAces} (h : principalViews ag.views sdg aces = none)
    (aces' : MibAces) : viewsOf ag sdg aces' = [] := by
  unfold viewsOf
  unfold principalViews at h ⊢
  split at h
  · next hver =>
      rw [if_pos hver, map_eq_none_iff.mp h]
      rfl
  · next hver =>
      rw [if_neg hver, map_eq_none_iff.mp h]
      rfl

/-- **View containment.** For every request, every principal and every reachable tree, with
handlers whose GETNEXT answers ascend and whose reads report no error: SET is called only
for OIDs covered by a read-write view and at most once per varbind, every value of a
handler in the response belongs to an OID covered by a read view, and an unregistered
principal causes no handler call. -/
theorem snmpRequestDispatch_contained {ag : Agent σ} (htree : ag.root.Reachable)
    {ok : Oid → Prop} (hr : ag.views.Reachable ok) {sdg : SnmpDatagram}
    (hu : KnownUser ag sdg) (hasc : ReadsAscend ag.handlers ag.root) (s : σ) :
    Contained ag sdg (snmpRequestDispatch ag sdg ⟨s, []⟩).2.log ∧
      (principalViews ag.views sdg .read = none → ∀ request callback o,
        Event.call request callback o ∉ (snmpRequestDispatch ag sdg ⟨s, []⟩).2.log) := by
  have hwf := htree.wf
  have hnext : ∀ sdg' : SnmpDatagram, sdg'.sender = sdg.sender → ∀ oid, True → ∀ ret,
      ReadPre .getnext (viewsOf ag sdg .read) ret → Spec (mibGetnext ag sdg' oid ret)
        (Each (Event.ReadOk (viewsOf ag sdg .read) (Covered (viewsOf ag sdg .read)))
          (ReadPost .getnext (viewsOf ag sdg .read) (fun _ => True)
            (Covered (viewsOf ag sdg .read)))) := by
    intro sdg' hs oid _ ret hret
    rw [← viewsOf_congr hs] at hret ⊢
    exact mibGetnext_contained hwf hasc hr (hu.congr hs) oid ret hret
  have hspec : Spec (snmpRequestDispatch ag sdg) fun _ new => Contained ag sdg new := by
    refine snmpRequestDispatch_spec (fun _ => ?_) (fun _ => ?_) (fun _ => ?_) (fun _ => ?_)
      (.of_read (by simp))
    · refine (snmpGet_each (G := fun _ => True) ?_ (by simp)).mono fun _ _ h => .of_read h.1
      intro sdg' hs oid _ ret hret
      have hs' : sdg'.sender = sdg.sender := hs
      rw [← viewsOf_congr hs'] at hret ⊢
      exact mibGet_contained hwf hasc hr (hu.congr hs') oid ret hret
    · refine (snmpGetnext_each (G := fun _ => True) ?_ (by simp)).mono fun _ _ h => .of_read h.1
      exact hnext
    · refine Spec.mono (setLoop_contained hwf hr hu _ _ (markResponse sdg) rfl _ ?_)
        fun _ _ h => .of_set h
      exact ⟨rfl, rfl⟩
    · refine (snmpBulkget_each (G := fun _ => True) ?_ (by simp)).mono fun _ _ h => .of_read h.1
      exact hnext
  obtain ⟨new, hlog, hcont⟩ := hspec ⟨s, []⟩
  rw [List.nil_append] at hlog
  rw [hlog]
  exact ⟨hcont, fun hnone => hcont.silent (viewsOf_unregistered hnone .read)
    (viewsOf_unregistered hnone .write)⟩

theorem scalarHandlers_readsAscend (root : MibNode) : ReadsAscend scalarHandlers root where
  ascend := by
    intro p callback _ s st err sub val tag h htag
    by_cases hs : s < [0]
    · simp only [scalarHandlers, singleHandlers, hs, if_true, Reply.ret.injEq] at h
      exact h.2.1 ▸ hs
    · simp only [scalarHandlers, singleHandlers, hs, if_false, Reply.ret.injEq] at h
      obtain ⟨-, -, -, rfl⟩ := h
      exact absurd htag (by decide)
  noError := by
    intro p callback _ request hreq s st err sub val tag h
    cases request with
    | get | getnext =>
      simp only [scalarHandlers, singleHandlers] at h
      split at h <;> exact (Reply.ret.inj h).1.symm
    | set => exact absurd rfl hreq

/-- A GETNEXT request of the community `p` from the last instance of its first view. -/
def pairRead : SnmpDatagram where
  contextName := [0x70]
  pduHdr := { pduType := snmpReqGetnext }
  vbInList := [{ oid := [1, 3, 0], valueType := asn1TagNul, value := [] }]

/-- A SET request of the community `p`, which can write its second view only. -/
def pairWrite : SnmpDatagram where
  contextName := [0x70]
  pduHdr := { pduType := snmpReqSet }
  vbInList := [{ oid := [2, 5, 0], valueType := asn1TagInt, value := [9] },
    { oid := [1, 3, 0], valueType := asn1TagInt, value := [9] }]

/-- The agent with two scalars meets the assumptions: the value that it reads is that of the next
view, and the handler that it calls to write is that of the view that can be written. -/
theorem pairRequests_contained :
    ReadsAscend pairAgent.handlers pairAgent.root ∧
      (∀ sdg ∈ [pairRead, pairWrite],
        Contained pairAgent sdg (snmpRequestDispatch pairAgent sdg ⟨(), []⟩).2.log) ∧
      setCalls (snmpRequestDispatch pairAgent pairWrite ⟨(), []⟩).2.log = [[2, 5, 0]] := by
  refine ⟨scalarHandlers_readsAscend _, fun sdg hsdg => ?_, by decide +kernel⟩
  have hknown : KnownUser pairAgent sdg := by
    obtain rfl | rfl : sdg = pairRead ∨ sdg = pairWrite := by simpa using hsdg
    all_goals simp [KnownUser, pairRead, pairWrite]
  exact (snmpRequestDispatch_contained pairAgent_walkable.tree pairAgent_walkable.reachable
    hknown (scalarHandlers_readsAscend _) ()).1

end SmithSnmp
