import SmithSnmp.AuthError

/-!
# When Authentication Is Enforced

Every request that comes to a handler in its views gets a value or sets one from some
handlers, however its authentication went: `obligingHandlers` answer whatever they are
asked. With `quiet_of_not_reached` this says exactly for which requests authentication is
enforced.

## Main results

* `mibGet_obliged`, `mibGetnext_obliged`, `setLoop_obliged`: the request processors with
  handlers that always answer.
* `authentication_enforced_iff`: authentication is enforced for the quiet requests only.
-/

namespace SmithSnmp

open List Lib MibNode Traced Option Spec

variable {ret : OidSearchRes} {root : MibNode} {d : ℕ} {vs : ViewState} {oid : Oid}
  {sdg sdg₀ : SnmpDatagram} {vbInCnt : UInt32} {Hit ok : Oid → Prop} {ag : Agent Unit}

/-- Handlers that answer every request with the integer 0. -/
def obligingHandlers : Handlers Unit where
  call _ _ _ _ st := (.ret 0 [] (.num 0) asn1TagInt, st)

/-- The agent with these handlers. -/
def obligingAgent (root : MibNode) (views : ViewState) : Agent Unit :=
  ⟨obligingHandlers, root, views⟩

/-- The search result has a value of a handler. -/
def OidSearchRes.Carries (ret : OidSearchRes) : Prop :=
  ret.var.tag = asn1TagInt ∧ ret.var.src.isSome = true

/-- The search result can be put into a response. -/
def OidSearchRes.Ready (ret : OidSearchRes) : Prop :=
  ret.oid.length ≤ asn1OidMaxLen ∧ ret.var.tag ≠ asn1TagObjid

theorem ne_objid_of_invalid {tag : UInt8} (h : asn1TagValid tag = false) :
    tag ≠ asn1TagObjid := by
  rintro rfl
  exact absurd h (by decide)

/-! ### Searches -/

/-- A handler gives its value to a read. -/
theorem mibInstanceSearch_obliged {path : Oid} (hreq : ret.request ≠ .set) :
    Spec (mibInstanceSearch obligingHandlers path ret) (Shows Event.Reveals False fun r =>
      r.Carries ∧ r.request = ret.request ∧ r.oid = ret.oid ∧ r.errStat = 0 ∧
        (ret.request = .getnext → r.instId = [])) := by
  refine mibInstanceSearch_spec fun st => ⟨?_, False.elim⟩
  have hval : asn1TagValid asn1TagInt = true := by decide
  have hcop : asn1TagCopied asn1TagInt = true := by decide
  simp only [obligingHandlers, takeReply, hval, hcop, hreq, and_self, if_true, if_false]
  exact ⟨_, rfl, ⟨rfl, rfl⟩, rfl, rfl, rfl, fun h => if_pos h⟩

theorem searchExact_obliged (hwf : root.Wf d) (views : ViewState) (oid view : Oid)
    (ret : OidSearchRes) (hret : ret.request = .get) :
    Spec (searchExact (obligingAgent root views) oid view ret) (Shows Event.Reveals False fun r =>
      r.request = .get ∧ r.oid = oid ∧ r.errStat = 0 ∧
        ((Reaches root view oid ∧ r.Carries) ∨
          (¬ Reaches root view oid ∧ asn1TagValid r.var.tag = false))) := by
  rw [searchExact, obligingAgent]
  by_cases hreach : Reaches root view oid
  · obtain ⟨p, callback, x, -, -, -, heq⟩ :=
      mibTreeSearch_of_reaches (h := obligingHandlers) hwf hreach
    rw [heq, Traced.bind_assoc]
    refine shows_after (mibInstanceSearch_obliged (by simp [hret])) ?_
    rintro r ⟨hcar, hreq, hoid, herr, -⟩
    exact shows_pure ⟨hreq.trans hret, hoid, herr, .inl ⟨hreach, hcar⟩⟩
  · obtain ⟨node, instId, tag, htag, heq⟩ :=
      mibTreeSearch_of_not_reaches (h := obligingHandlers) hwf hreach ret
    rw [heq]
    exact shows_pure ⟨hret, rfl, rfl, .inr ⟨hreach, htag⟩⟩

theorem getViews_obliged (hwf : root.Wf d) (oid : Oid) (views : List Oid) (ret : OidSearchRes)
    (hret : ret.request = .get) (hne : views ≠ [] ∨ ret.var.tag ≠ asn1TagObjid) :
    Spec (overViews (searchExact (obligingAgent root vs) oid) (foundExact oid) oid views ret)
      (Shows Event.Reveals False fun r => r.request = .get ∧ r.oid = oid ∧
        r.var.tag ≠ asn1TagObjid ∧ (ExactReach root oid views → r.Carries)) := by
  induction views generalizing ret with
  | nil => exact shows_pure ⟨hret, rfl, hne.resolve_left (by simp), False.elim⟩
  | cons v views ih =>
    rw [overViews]
    refine shows_after (searchExact_obliged hwf vs oid v ret hret) ?_
    rintro r ⟨hreq, hoid, herr, ⟨hreach, hcar⟩ | ⟨hreach, htag⟩⟩
    · have hfound : foundExact oid v r = true := by
        have hval : asn1TagValid asn1TagInt = true := by decide
        simp [foundExact, herr, hcar.1, hval]
      rw [if_pos hfound]
      exact shows_pure ⟨hreq, hoid, by rw [hcar.1]; decide, fun _ => hcar⟩
    · by_cases hahead : Ahead oid v
      · have hfound : foundExact oid v r = true := by
          rw [Ahead] at hahead
          simp [foundExact, hahead]
        rw [if_pos hfound]
        refine shows_pure ⟨hreq, hoid, ne_objid_of_invalid htag, ?_⟩
        exact fun h => (h.elim hreach fun h => h.1 hahead).elim
      · have hfound : ¬ foundExact oid v r = true := by
          rw [Ahead] at hahead
          simp [foundExact, hahead, htag]
        rw [if_neg hfound]
        refine (ih r hreq (.inr (ne_objid_of_invalid htag))).shows_mono id ?_
        rintro r' ⟨hreq', hoid', htag', hcar'⟩
        exact ⟨hreq', hoid', htag', fun h => hcar' (h.resolve_left hreach).2⟩

/-- Paths of instance nodes are as long as the tree is deep. -/
theorem registered_length_le (hwf : root.Wf d) {p : Oid} {callback : Int}
    (h : (p, callback) ∈ registered root) : p.length ≤ d := by
  induction hwf generalizing p with
  | inst =>
    obtain ⟨rfl, -⟩ := Prod.mk.inj (mem_singleton.mp h)
    exact Nat.zero_le _
  | group _ _ ih =>
    obtain ⟨x, n, q, hn, rfl, hq⟩ := mem_registeredSubs_iff.mp h
    exact Nat.succ_le_succ (ih (x, n) hn hq)

/-- The queries of a traversal: the first path that is comparable with the view is
answered. -/
theorem runQueries_obliged {view orig : Oid} (horig : orig.length ≤ asn1OidMaxLen)
    {qs : List Query} (hlen : ∀ q ∈ qs, q.path.length ≤ asn1OidMaxLen) (ret : OidSearchRes)
    (hret : ret.request = .getnext) :
    Spec (runQueries obligingHandlers view orig qs ret) (Shows Event.Reveals False fun r =>
      r.request = .getnext ∧ r.oid.length ≤ asn1OidMaxLen ∧
        (((∃ q ∈ qs, q.path <+: view ∨ view <+: q.path) ∧ r.Carries) ∨
          ((¬ ∃ q ∈ qs, q.path <+: view ∨ view <+: q.path) ∧
            r.var.tag = asn1TagEndOfMibView))) := by
  induction qs generalizing ret with
  | nil => exact shows_pure ⟨hret, horig, .inr ⟨by simp, rfl⟩⟩
  | cons q qs ih =>
    rw [runQueries]
    refine shows_after (mibInstanceSearch_obliged (by simp [hret])) ?_
    rintro r ⟨hcar, hreq, -, -, hinst⟩
    have hval : asn1TagValid r.var.tag = true := by
      rw [hcar.1]
      decide
    have hpath : q.path ++ r.instId = q.path := by rw [hinst hret, append_nil]
    dsimp only
    rw [if_pos hval, hpath, if_neg (not_lt.mpr (hlen q (by simp)))]
    by_cases hcov : oidCover view q.path = 0
    · rw [if_pos hcov]
      have hnot : ¬ (q.path <+: view ∨ view <+: q.path) := by
        have := (oidCover_eq_zero_iff _ _).mp hcov
        exact not_or.mpr ⟨this.2, this.1⟩
      refine (ih (fun q' hq' => hlen q' (by simp [hq'])) { r with oid := q.path }
        (hreq.trans hret)).shows_mono id ?_
      rintro r' ⟨hreq', hoid', hout⟩
      refine ⟨hreq', hoid', hout.imp (fun h => ⟨?_, h.2⟩) fun h => ⟨?_, h.2⟩⟩
      · obtain ⟨q', hq', hcomp⟩ := h.1
        exact ⟨q', by simp [hq'], hcomp⟩
      · rintro ⟨q', hq', hcomp⟩
        rcases mem_cons.mp hq' with rfl | hq'
        · exact hnot hcomp
        · exact h.1 ⟨q', hq', hcomp⟩
    · rw [if_neg hcov]
      have hcomp : q.path <+: view ∨ view <+: q.path :=
        comparable_of_cover (x := []) (by rwa [append_nil])
      exact shows_pure ⟨hreq.trans hret, hlen q (by simp),
        .inl ⟨⟨q, by simp, hcomp⟩, hcar⟩⟩

theorem searchNext_obliged (hwf : root.Wf asn1OidMaxLen) {views : ViewState}
    (hoid : oid.length ≤ asn1OidMaxLen) (view : Oid) (ret : OidSearchRes)
    (hret : ret.request = .getnext) :
    Spec (searchNext (obligingAgent root views) oid view ret) (Shows Event.Reveals False fun r =>
      r.request = .getnext ∧ r.oid.length ≤ asn1OidMaxLen ∧
        ((NextReach root oid view ∧ r.Carries) ∨
          (¬ NextReach root oid view ∧ r.var.tag = asn1TagEndOfMibView))) := by
  rw [searchNext, obligingAgent, mibTreeSearchNext_eq _ hwf]
  split
  · next hent =>
      refine shows_after (R := fun r => r.request = .getnext) (H := False) ?_ fun r hr => ?_
      · have heq : viewProbe obligingHandlers root view ret =
            searchExact (obligingAgent root views) view view { ret with request := .get } >>=
              fun r => pure { r with request := .getnext, errStat := 0 } := by
          rw [searchExact, Traced.bind_assoc]
          rfl
        rw [heq]
        exact shows_after (searchExact_obliged hwf views view view _ rfl) fun r _ =>
          shows_pure rfl
      · refine shows_mono (runQueries_obliged hoid (fun q hq => ?_) _ hr) id ?_
        · exact registered_length_le hwf (nextQueries_registered hwf hq)
        · rintro r' h
          rwa [← nextReach_iff hwf hent] at h
  · next hent =>
      exact shows_pure ⟨hret, hoid, .inr ⟨fun h => hent h.1, rfl⟩⟩

theorem getnextViews_obliged (hwf : root.Wf asn1OidMaxLen) (hoid : oid.length ≤ asn1OidMaxLen)
    (views : List Oid) (ret : OidSearchRes) (hret : ret.request = .getnext)
    (hne : views ≠ [] ∨ ret.var.tag ≠ asn1TagObjid) :
    Spec (overViews (searchNext (obligingAgent root vs) oid) foundNext oid views ret)
      (Shows Event.Reveals False fun r => r.request = .getnext ∧ r.Ready ∧
        ((∃ v ∈ views, NextReach root oid v) → r.Carries)) := by
  induction views generalizing ret with
  | nil =>
    exact shows_pure ⟨hret, ⟨hoid, hne.resolve_left (by simp)⟩, by simp⟩
  | cons v views ih =>
    rw [overViews]
    refine shows_after (searchNext_obliged hwf hoid v ret hret) ?_
    rintro r ⟨hreq, hlen, ⟨hreach, hcar⟩ | ⟨hreach, htag⟩⟩
    · have hfound : foundNext v r = true := by
        rw [foundNext, hcar.1]
        decide
      rw [if_pos hfound]
      exact shows_pure ⟨hreq, ⟨hlen, by rw [hcar.1]; decide⟩, fun _ => hcar⟩
    · have hfound : ¬ foundNext v r = true := by simp [foundNext, htag]
      rw [if_neg hfound]
      refine (ih r hreq (.inr (by rw [htag]; decide))).shows_mono id ?_
      rintro r' ⟨hreq', hready, hcar⟩
      refine ⟨hreq', hready, ?_⟩
      rintro ⟨u, hu, hnext⟩
      rcases mem_cons.mp hu with rfl | hu
      · exact absurd hnext hreach
      · exact hcar ⟨u, hu, hnext⟩

/-! ### Reads -/

/-- An answer puts a value of a handler into the response, if it has one. -/
theorem answer_obliged {type : UInt8} {value : List UInt8} {room : ℕ}
    (hlen : ret.oid.length ≤ asn1OidMaxLen) :
    Spec (answer sdg vbInCnt type value room ret : AgentM Unit SnmpDatagram)
      (Shows Event.Reveals ret.Carries fun sdg' => sdg'.sender = sdg.sender) := by
  obtain ⟨oidLen, hoid⟩ : ∃ n, berOidEncTry ret.oid = some n := by
    have hle : ¬ ret.oid.length > 255 := by
      simp only [asn1OidMaxLen] at hlen
      omega
    rw [berOidEncTry, if_neg hle]
    split <;> exact ⟨_, rfl⟩
  simp only [answer, addVarBind, hoid, map_some]
  refine Spec.bind (Spec.emit (Q := fun r new => r = some () ∧ new = [_]) ⟨rfl, rfl⟩) ?_ ?_
  · rintro _ l ⟨-, rfl⟩
    refine Spec.pure ⟨⟨_, rfl, rfl⟩, fun hcar =>
      ⟨_, mem_append_left _ (mem_singleton.mpr rfl), ?_⟩⟩
    have hvalid : asn1TagValid ret.var.tag = true := by
      rw [hcar.1]
      decide
    rw [if_pos hvalid]
    exact hcar.2
  · rintro l ⟨h, -⟩
    cases h

theorem answerRead_obliged (hready : ret.Ready) :
    Spec (answerRead sdg vbInCnt ret : AgentM Unit SnmpDatagram)
      (Shows Event.Reveals ret.Carries fun sdg' => sdg'.sender = sdg.sender) := by
  obtain ⟨valLen, hval⟩ : ∃ n, berValueEncTry ret.var.value ret.var.len.toNat ret.var.tag =
      some n := by
    refine ne_none_iff_exists'.mp fun h => ?_
    exact hready.2 ((berValueEncTry_eq_none_iff _ _ _).mp h).1
  simp only [answerRead, hval]
  exact answer_obliged hready.1

/-- What a read of one varbind does with these handlers: it comes to an end, and where it
hits a handler it has a value. -/
def Obliged (find : SnmpDatagram → Oid → OidSearchRes → AgentM Unit OidSearchRes)
    (request : Request) (sdg₀ : SnmpDatagram) (Hit : Oid → Prop) : Prop :=
  ∀ sdg : SnmpDatagram, sdg.sender = sdg₀.sender → ∀ oid : Oid, oid.length ≤ asn1OidMaxLen →
    ∀ ret : OidSearchRes, ret.request = request → Spec (find sdg oid ret)
      (Shows Event.Reveals False fun r => r.request = request ∧ r.Ready ∧ (Hit oid → r.Carries))

theorem mibGet_obliged (hwf : root.Wf d) (hnd : (viewsOf (obligingAgent root vs) sdg .read).Nodup)
    (hne : viewsOf (obligingAgent root vs) sdg .read ≠ []) :
    Obliged (mibGet (obligingAgent root vs)) .get sdg fun oid =>
      ExactReach root oid (viewsOf (obligingAgent root vs) sdg .read) := by
  intro sdg' hs oid hoid ret hret
  rw [← viewsOf_congr hs] at hnd hne ⊢
  rw [mibGet_eq_overViews hnd]
  refine (getViews_obliged hwf oid _ _ (by simpa using hret) (.inl hne)).shows_mono id ?_
  rintro r ⟨hreq, rfl, htag, hcar⟩
  exact ⟨hreq, ⟨hoid, htag⟩, hcar⟩

theorem mibGetnext_obliged (hwf : root.Wf asn1OidMaxLen)
    (hnd : (viewsOf (obligingAgent root vs) sdg .read).Nodup)
    (hne : viewsOf (obligingAgent root vs) sdg .read ≠ []) :
    Obliged (mibGetnext (obligingAgent root vs)) .getnext sdg fun oid =>
      ∃ v ∈ viewsOf (obligingAgent root vs) sdg .read, NextReach root oid v := by
  intro sdg' hs oid hoid ret hret
  rw [← viewsOf_congr hs] at hnd hne ⊢
  rw [mibGetnext_eq_overViews hnd]
  exact getnextViews_obliged hwf hoid _ _ (by simpa using hret) (.inl hne)

/-- **Run lemma for GET and GETNEXT**: a varbind that hits a handler gets its value, when all values
are decoded. -/
theorem readLoop_obliged {find : SnmpDatagram → Oid → OidSearchRes → AgentM Unit OidSearchRes}
    {request : Request} (hfind : Obliged find request sdg₀ Hit) (vbs : List VarBind)
    (hlen : ∀ vb ∈ vbs, vb.oid.length ≤ asn1OidMaxLen) (hdec : ∀ vb ∈ vbs, ¬ vb.Stuck)
    (vbInCnt : UInt32) (sdg : SnmpDatagram) (hsdg : sdg.sender = sdg₀.sender) (ret : OidSearchRes)
    (hret : ret.request = request) :
    Spec (readLoop find vbs vbInCnt sdg ret)
      (Shows Event.Reveals (∃ vb ∈ vbs, Hit vb.oid) fun _ => True) := by
  induction vbs generalizing vbInCnt sdg ret with
  | nil => exact (shows_pure (R := fun _ => True) trivial).shows_mono (by simp) fun _ h => h
  | cons vb vbs ih =>
    rw [readLoop]
    refine Spec.loadValue_bind (fun h => absurd h (hdec vb (by simp))) fun _ dec _ => ?_
    have hfirst := hfind sdg hsdg vb.oid (hlen vb (by simp)) (ret.load vb dec) hret
    refine shows_after hfirst ?_
    rintro r ⟨hreq, hready, hcar⟩
    refine (shows_bind (answerRead_obliged hready) fun sdg' hsdg' =>
      ih (fun vb' hvb' => hlen vb' (by simp [hvb'])) (fun vb' hvb' => hdec vb' (by simp [hvb']))
        _ sdg' (hsdg'.trans hsdg) r hreq).shows_mono ?_ fun _ h => h
    rintro ⟨vb', hvb', hhit⟩
    rcases mem_cons.mp hvb' with rfl | hvb'
    · exact .inl (hcar hhit)
    · exact .inr ⟨vb', hvb', hhit⟩

theorem bulkgetRow_obliged (hfind : Obliged (mibGetnext ag) .getnext sdg₀ Hit)
    (vbs done : List VarBind) (hlen : ∀ vb ∈ vbs, vb.oid.length ≤ asn1OidMaxLen)
    (hdec : ∀ vb ∈ vbs, ¬ vb.Stuck)
    (hdone : ∀ vb ∈ done, vb.oid.length ≤ asn1OidMaxLen ∧ ¬ vb.Stuck) (st : BulkState)
    (hsdg : st.sdg.sender = sdg₀.sender) (hret : st.ret.request = .getnext) :
    Spec (snmpBulkgetRow ag done vbs st)
      (Shows Event.Reveals (∃ vb ∈ vbs, Hit vb.oid) fun st' =>
        (∀ vb ∈ st'.vbs, vb.oid.length ≤ asn1OidMaxLen ∧ ¬ vb.Stuck) ∧
          st'.sdg.sender = sdg₀.sender ∧ st'.ret.request = .getnext) := by
  induction vbs generalizing done st with
  | nil =>
    rw [snmpBulkgetRow]
    exact (shows_pure ⟨hdone, hsdg, hret⟩).shows_mono (by simp) fun _ h => h
  | cons vb vbs ih =>
    rw [snmpBulkgetRow]
    refine Spec.loadValue_bind (fun h => absurd h (hdec vb (by simp))) fun hvb dec _ => ?_
    have hfirst := hfind st.sdg hsdg vb.oid (hlen vb (by simp)) (st.ret.load vb dec) hret
    refine shows_after hfirst ?_
    rintro r ⟨hreq, hready, hcar⟩
    refine (shows_bind (answerRead_obliged hready) fun sdg' hsdg' =>
      ih _ (fun vb' hvb' => hlen vb' (by simp [hvb'])) (fun vb' hvb' => hdec vb' (by simp [hvb']))
        ?_ _ (hsdg'.trans hsdg) hreq).shows_mono ?_ fun _ h => h
    · intro vb' hvb'
      rcases mem_append.mp hvb' with hvb' | hvb'
      · exact hdone vb' hvb'
      · rw [mem_singleton.mp hvb']
        exact ⟨hready.1, hvb⟩
    · rintro ⟨vb', hvb', hhit⟩
      rcases mem_cons.mp hvb' with rfl | hvb'
      · exact .inl (hcar hhit)
      · exact .inr ⟨vb', hvb', hhit⟩

/-- **Run lemma for GETBULK**: a varbind that hits a handler in the first row gets its
value. -/
theorem bulkgetLoop_obliged (hfind : Obliged (mibGetnext ag) .getnext sdg₀ Hit) (repeats : ℕ)
    (st : BulkState) (hlen : ∀ vb ∈ st.vbs, vb.oid.length ≤ asn1OidMaxLen ∧ ¬ vb.Stuck)
    (hsdg : st.sdg.sender = sdg₀.sender) (hret : st.ret.request = .getnext) :
    Spec (snmpBulkgetLoop ag repeats st)
      (Shows Event.Reveals (repeats ≠ 0 ∧ ∃ vb ∈ st.vbs, Hit vb.oid) fun _ => True) := by
  induction repeats generalizing st with
  | zero => exact (shows_pure (R := fun _ => True) trivial).shows_mono (by simp) fun _ h => h
  | succ repeats ih =>
    rw [snmpBulkgetLoop]
    refine (shows_bind (bulkgetRow_obliged hfind st.vbs [] (fun vb hvb => (hlen vb hvb).1)
      (fun vb hvb => (hlen vb hvb).2) (by simp) st hsdg hret) ?_).shows_mono (K := repeats + 1 ≠ 0 ∧ ∃ vb ∈ st.vbs, Hit vb.oid) (H := _ ∨ False)
        (fun h => .inl h.2) fun _ h => h
    rintro st' ⟨hlen', hsdg', hret'⟩
    exact (ih st' hlen' hsdg' hret').shows_mono False.elim fun _ h => h

/-- `snmp_bulkget`, when it repeats at all. -/
theorem snmpBulkget_obliged (sdg : SnmpDatagram) (hfind : Obliged (mibGetnext ag) .getnext sdg Hit)
    (hlen : ∀ vb ∈ sdg.vbInList, vb.oid.length ≤ asn1OidMaxLen)
    (hdec : ∀ vb ∈ sdg.vbInList, ¬ vb.Stuck) (hrep : sdg.pduHdr.errIdx ≠ 0) :
    Spec (snmpBulkget ag sdg)
      (Shows Event.Reveals (∃ vb ∈ sdg.vbInList, Hit vb.oid) fun _ => True) := by
  have hne : sdg.pduHdr.errIdx.toUInt32.toNat ≠ 0 := repetitions_ne_zero hrep
  rw [snmpBulkget]
  refine (shows_bind (H := sdg.pduHdr.errIdx.toUInt32.toNat ≠ 0 ∧ _) (K := False)
    (bulkgetLoop_obliged hfind _ _ (fun vb hvb => ⟨hlen vb hvb, hdec vb hvb⟩) rfl rfl) ?_).shows_mono
      (fun h => .inl ⟨hne, h⟩) fun _ h => h
  exact fun _ _ => shows_pure trivial

/-! ### Writes -/

theorem setSearch_obliged (hwf : root.Wf d) (vs : ViewState) (oid view : Oid) (ret : OidSearchRes)
    (hret : SetInv ret) :
    Spec (searchExact (obligingAgent root vs) oid view ret)
      (Shows Event.Sets (Reaches root view oid) fun r => SetInv r ∧ r.oid = oid ∧
        r.var.tag ≠ asn1TagObjid ∧ (¬ Reaches root view oid → asn1TagValid r.var.tag = false)) := by
  rw [searchExact, obligingAgent]
  by_cases hreach : Reaches root view oid
  · obtain ⟨p, callback, x, -, -, -, heq⟩ :=
      mibTreeSearch_of_reaches (h := obligingHandlers) hwf hreach
    have hval : asn1TagValid asn1TagInt = true := by decide
    rw [heq, Traced.bind_assoc]
    refine (shows_bind (H := True) (K := False) (R := fun r => SetInv r ∧ r.oid = oid ∧
      r.var.tag = asn1TagInt) (mibInstanceSearch_spec fun st => ⟨?_, fun _ => ?_⟩) ?_).shows_mono
        (fun _ => .inl trivial) fun _ h => h
    · simp only [obligingHandlers, takeReply, hval, hret.1, and_self, if_true]
      exact ⟨_, rfl, ⟨rfl, hret.2⟩, rfl, rfl⟩
    · exact ⟨_, mem_singleton.mpr rfl, hret.1⟩
    · rintro r ⟨hinv, hoid, htag⟩
      exact shows_pure ⟨hinv, hoid, by rw [htag]; decide, fun h => absurd hreach h⟩
  · obtain ⟨node, instId, tag, htag, heq⟩ :=
      mibTreeSearch_of_not_reaches (h := obligingHandlers) hwf hreach ret
    rw [heq]
    exact (shows_pure ⟨hret, rfl, ne_objid_of_invalid htag, fun _ => htag⟩).shows_mono
      hreach fun _ h => h

/-- SET over the views calls a handler where it comes to one. -/
theorem setViews_obliged (hwf : root.Wf d) (oid : Oid) (views : List Oid) (ret : OidSearchRes)
    (hret : SetInv ret) (hne : views ≠ [] ∨ ret.var.tag ≠ asn1TagObjid) :
    Spec (overViews (searchExact (obligingAgent root vs) oid) (foundExact oid) oid views ret)
      (Shows Event.Sets (ExactReach root oid views) fun r => SetInv r ∧ r.oid = oid ∧
        r.var.tag ≠ asn1TagObjid) := by
  induction views generalizing ret with
  | nil =>
    exact (shows_pure ⟨hret, rfl, hne.resolve_left (by simp)⟩).shows_mono id fun _ h => h
  | cons v views ih =>
    rw [overViews]
    refine (shows_bind (K := ¬ Reaches root v oid ∧ ExactReach root oid (v :: views))
      (setSearch_obliged hwf vs oid v ret hret) ?_).shows_mono ?_ fun _ h => h
    · rintro r ⟨hinv, hoid, htag, hmiss⟩
      split
      · next hfound =>
          refine (shows_pure ⟨hinv, hoid, htag⟩).shows_mono ?_ fun _ h => h
          rintro ⟨hno, hreach⟩
          have hahead := (hreach.resolve_left hno).1
          rw [Ahead] at hahead
          simp [foundExact, hmiss hno, hahead] at hfound
      · refine (ih r hinv (.inr htag)).shows_mono ?_ fun _ h => h
        rintro ⟨hno, hreach⟩
        exact (hreach.resolve_left hno).2
    · intro hreach
      by_cases hv : Reaches root v oid
      · exact .inl hv
      · exact .inr ⟨hv, hreach⟩

theorem answerSet_obliged {vb : VarBind} (hret : SetInv ret) (hoid : ret.oid.length ≤ asn1OidMaxLen)
    (hval : berValueEncTry ret.var.value ret.var.len.toNat ret.var.tag ≠ none) :
    Spec (answerSet sdg vb vbInCnt ret : AgentM Unit (SnmpDatagram × OidSearchRes))
      (Shows Event.Sets False fun r => r.1.sender = sdg.sender ∧ SetInv r.2) := by
  obtain ⟨valLen, hsome⟩ := ne_none_iff_exists'.mp hval
  simp only [answerSet, hsome]
  refine shows_after (R := fun sdg' => sdg'.sender = sdg.sender) (H := False) ?_
    fun sdg' hsdg' => shows_pure ⟨hsdg', ?_⟩
  · refine (answer_obliged ?_).mono fun _ _ h => ⟨h.1, False.elim⟩
    split <;> exact hoid
  · split <;> exact hret

/-- Where SET comes to a handler, a view covers the OID. -/
theorem viewCover_of_exactReach {views : List Oid} (h : ExactReach root oid views) :
    viewCover views oid = true := by
  induction views with
  | nil => exact h.elim
  | cons v views ih =>
    rw [viewCover, any_cons, Bool.or_eq_true]
    rcases h with h | h
    · exact .inl (decide_eq_true ((oidCover_pos_iff v oid).mpr h.1))
    · exact .inr (ih h.2)

theorem mibSet_obliged (hwf : root.Wf d) (hr : vs.Reachable ok)
    (hu : KnownUser (obligingAgent root vs) sdg) (vb : VarBind) {dec : ℕ × List UInt8}
    (hdec : berValueDec vb.value vb.valueType = some dec) (ret : OidSearchRes) (hret : SetInv ret) :
    Spec (mibSet (obligingAgent root vs) sdg vb.oid (ret.load vb dec))
      (Shows Event.Sets
        (ExactReach root vb.oid (viewsOf (obligingAgent root vs) sdg .write)) fun r =>
          SetInv r ∧ r.oid = vb.oid ∧
            (¬ SetHangs (viewsOf (obligingAgent root vs) sdg .write) vb →
              berValueEncTry r.var.value r.var.len.toNat r.var.tag ≠ none)) := by
  have hload : SetInv (ret.load vb dec) := hret
  rw [mibSet_eq hr hu]
  by_cases hcov : viewCover (viewsOf (obligingAgent root vs) sdg .write) vb.oid = true
  · rw [if_pos hcov]
    refine (setViews_obliged hwf vb.oid _ _ hload.writeAccess (.inl ?_)).shows_mono id ?_
    · intro hnil
      rw [hnil] at hcov
      exact absurd hcov (by simp [viewCover])
    · rintro r ⟨hinv, hoid, htag⟩
      exact ⟨hinv, hoid, fun _ h => htag ((berValueEncTry_eq_none_iff _ _ _).mp h).1⟩
  · rw [if_neg hcov, overViews]
    refine (shows_pure ⟨hload.writeAccess, rfl, fun hang h => hang ?_⟩).shows_mono
      (fun h => hcov (viewCover_of_exactReach h)) fun _ h => h
    dsimp only at h
    rw [writeAccess_var] at h
    obtain ⟨htag, hlen⟩ := (berValueEncTry_eq_none_iff _ _ _).mp h
    exact ⟨Bool.eq_false_iff.mpr hcov, htag, load_len hdec ret ▸ hlen⟩

/-- **Run lemma for SET**: a varbind that comes to a handler is set, if the loop gets to
it. -/
theorem setLoop_obliged (hwf : root.Wf d) (hr : vs.Reachable ok)
    (hu : KnownUser (obligingAgent root vs) sdg₀) (vbs : List VarBind)
    (hlen : ∀ vb ∈ vbs, vb.oid.length ≤ asn1OidMaxLen) (vbInCnt : UInt32) (sdg : SnmpDatagram)
    (hsdg : sdg.sender = sdg₀.sender) (ret : OidSearchRes) (hret : SetInv ret) :
    Spec (snmpSetLoop (obligingAgent root vs) vbs vbInCnt sdg ret) fun _ new =>
      ¬ SetQuiet root (viewsOf (obligingAgent root vs) sdg₀ .write) vbs →
        ∃ e ∈ new, e.Sets := by
  induction vbs generalizing vbInCnt sdg ret with
  | nil => exact Spec.pure fun h => absurd trivial h
  | cons vb vbs ih =>
    rw [snmpSetLoop]
    refine Spec.loadValue_bind (fun hvb h => absurd (.inl hvb) h) fun _ dec hdec => ?_
    by_cases hang : SetHangs (viewsOf (obligingAgent root vs) sdg₀ .write) vb
    · have hang' : SetHangs (viewsOf (obligingAgent root vs) sdg .write) vb :=
        viewsOf_congr hsdg .write ▸ hang
      rw [← Traced.bind_assoc, mibSet_hangs hr (hu.congr hsdg) hang' hdec]
      refine Spec.abort fun h => absurd (.inr ⟨fun hreach => ?_, .inl hang⟩) h
      exact absurd (viewCover_of_exactReach hreach) (by simp [hang.1])
    · have hfirst := mibSet_obliged hwf hr (hu.congr hsdg) vb hdec ret hret
      rw [viewsOf_congr hsdg] at hfirst
      refine hfirst.bind ?_ ?_
      · rintro r l ⟨⟨_, ⟨⟩, hinv, hoid, hval⟩, hhit⟩
        have hlen' : r.oid.length ≤ asn1OidMaxLen := hoid ▸ hlen vb (by simp)
        refine (answerSet_obliged hinv hlen' (hval hang)).bind ?_ ?_
        · rintro ⟨sdg', r'⟩ l' ⟨⟨_, ⟨⟩, hsdg', hinv'⟩, -⟩
          refine (ih (fun vb' hvb' => hlen vb' (by simp [hvb'])) _ sdg' (hsdg'.trans hsdg) r'
            hinv').mono fun _ l'' hrest hloud => ?_
          by_cases hreach : ExactReach root vb.oid
              (viewsOf (obligingAgent root vs) sdg₀ .write)
          · obtain ⟨e, he, hE⟩ := hhit hreach
            exact ⟨e, by simp [he], hE⟩
          · obtain ⟨e, he, hE⟩ := hrest fun h => hloud (.inr ⟨hreach, .inr h⟩)
            exact ⟨e, by simp [he], hE⟩
        · rintro l' ⟨⟨_, ⟨⟩, -⟩, -⟩
      · rintro l ⟨⟨_, ⟨⟩, -⟩, -⟩

/-! ### Requests -/

/-- Authentication of the datagram failed, or there was none. -/
def AuthFailed (sdg : SnmpDatagram) : Prop :=
  sdg.hasFlag snmpSecurFlagAuth = false ∨
    (sdg.hasFlag snmpSecurFlagAuth = true ∧ sdg.authErr ≠ 0)

/-- A read that shows a value does harm. -/
theorem not_harmless_of_shows {H : Prop} {R : SnmpDatagram → Prop} {r : Option SnmpDatagram}
    {new : List Event} (h : Shows Event.Reveals H R r new) (hH : H) :
    ¬ Harmless (r.map some) new := by
  obtain ⟨⟨resp, rfl, -⟩, hshow⟩ := h
  obtain ⟨e, he, hE⟩ := hshow hH
  exact fun hharm => hharm.2 ⟨resp, rfl⟩ e he hE

/-- **A request that is not quiet** sets a value or gets one, from handlers that answer. -/
theorem harmful_of_not_quiet (hroot : root.Reachable) (hr : vs.Reachable ok)
    (hu : KnownUser (obligingAgent root vs) sdg)
    (hlen : ∀ vb ∈ sdg.vbInList, vb.oid.length ≤ asn1OidMaxLen)
    (hloud : ¬ Quiet root (viewsOf (obligingAgent root vs) sdg .read)
      (viewsOf (obligingAgent root vs) sdg .write) sdg) :
    Spec (snmpRequestDispatch (obligingAgent root vs) sdg) fun r new => ¬ Harmless r new := by
  have hwf := hroot.wf
  have hnd : (viewsOf (obligingAgent root vs) sdg .read).Nodup :=
    (viewsOf_antichain hr hu .read).nodup
  have hbulkNe : snmpReqBulkget ≠ snmpReqGet ∧ snmpReqBulkget ≠ snmpReqGetnext ∧
      snmpReqBulkget ≠ snmpReqSet := by decide
  have hsetNe : snmpReqSet ≠ snmpReqGet ∧ snmpReqSet ≠ snmpReqGetnext := by decide
  have hnextNe : snmpReqGetnext ≠ snmpReqGet := by decide
  rw [Quiet, not_and_or, not_and_or, not_and_or] at hloud
  rw [snmpRequestDispatch]
  -- GET, GETNEXT, SET and GETBULK
  rcases hloud with h | h | h | h
  · obtain ⟨htype, hread⟩ := Classical.not_imp.mp h
    obtain ⟨hdec, vb, hvb, hreach⟩ := not_readQuiet_iff.mp hread
    have hne : viewsOf (obligingAgent root vs) sdg .read ≠ [] := by
      intro hnil
      rw [hnil] at hreach
      exact hreach
    rw [if_pos htype]
    exact Spec.map ((readLoop_obliged (mibGet_obliged hwf hnd hne) _ hlen hdec 0
      (markResponse sdg) rfl _ rfl).mono fun _ _ h => not_harmless_of_shows h ⟨vb, hvb, hreach⟩)
  · obtain ⟨htype, hread⟩ := Classical.not_imp.mp h
    obtain ⟨hdec, vb, hvb, v, hv, hreach⟩ := not_readQuiet_iff.mp hread
    rw [if_neg (by rw [htype]; exact hnextNe), if_pos htype]
    exact Spec.map ((readLoop_obliged (mibGetnext_obliged hwf hnd (ne_nil_of_mem hv)) _
      hlen hdec 0 (markResponse sdg) rfl _ rfl).mono fun _ _ h =>
        not_harmless_of_shows h ⟨vb, hvb, v, hv, hreach⟩)
  · obtain ⟨htype, hset⟩ := Classical.not_imp.mp h
    rw [if_neg (by rw [htype]; exact hsetNe.1), if_neg (by rw [htype]; exact hsetNe.2),
      if_pos htype]
    refine Spec.map ((setLoop_obliged hwf hr hu _ hlen 0 (markResponse sdg) rfl _
      ⟨rfl, rfl⟩).mono fun _ _ h hharm => ?_)
    obtain ⟨e, he, hE⟩ := h hset
    exact hharm.1 e he hE
  · obtain ⟨htype, hread⟩ := Classical.not_imp.mp h
    obtain ⟨hrep, hread⟩ := not_or.mp hread
    obtain ⟨hdec, vb, hvb, v, hv, hreach⟩ := not_readQuiet_iff.mp hread
    rw [if_neg (by rw [htype]; exact hbulkNe.1), if_neg (by rw [htype]; exact hbulkNe.2.1),
      if_neg (by rw [htype]; exact hbulkNe.2.2), if_pos htype]
    have hfind := mibGetnext_obliged hwf hnd (ne_nil_of_mem hv)
    exact Spec.map ((snmpBulkget_obliged (markResponse sdg) hfind hlen hdec hrep).mono
      fun _ _ h => not_harmless_of_shows h ⟨vb, hvb, v, hv, hreach⟩)

/-- **Authentication** of a user's request is enforced, whatever the handlers do, if and
only if the request is quiet: no varbind of a SET comes to a handler, and no varbind of a
read comes to one that can give it a value, unless the agent never gets to the end of it. -/
theorem authentication_enforced_iff {root : MibNode} (hroot : root.Reachable) {vs : ViewState}
    {ok : Oid → Prop} (hr : vs.Reachable ok) {sdg : SnmpDatagram} (hver : 3 ≤ sdg.version)
    {u : MibUser} (huser : sdg.user = some u) (hu : u ∈ vs.users)
    (hlen : ∀ vb ∈ sdg.vbInList, vb.oid.length ≤ asn1OidMaxLen) :
    (AuthFailed sdg → ∀ (σ : Type) (h : Handlers σ) (s : σ),
        Harmless (snmpRequestDispatch ⟨h, root, vs⟩ sdg ⟨s, []⟩).1
          (snmpRequestDispatch ⟨h, root, vs⟩ sdg ⟨s, []⟩).2.log) ↔
      (AuthFailed sdg → Quiet root u.roViews u.rwViews sdg) := by
  have hviews : ∀ (σ : Type) (h : Handlers σ) (aces : MibAces),
      viewsOf (⟨h, root, vs⟩ : Agent σ) sdg aces = u.viewsOf aces := by
    intro σ h aces
    simp only [viewsOf, principalViews, hver, if_true, huser, map_some, getD_some]
  have hknown : ∀ (σ : Type) (h : Handlers σ), KnownUser (⟨h, root, vs⟩ : Agent σ) sdg := by
    intro σ h u' hu'
    rw [huser] at hu'
    exact some.inj hu' ▸ hu
  refine imp_congr_right fun _ => ⟨fun hsafe => ?_, fun hquiet σ h s => ?_⟩
  · by_contra hloud
    have hspec := harmful_of_not_quiet hroot hr (hknown Unit obligingHandlers) hlen (by
      rw [obligingAgent, hviews, hviews]
      exact hloud)
    obtain ⟨new, hlog, hharm⟩ := hspec ⟨(), []⟩
    rw [nil_append] at hlog
    exact hharm (hlog ▸ hsafe Unit obligingHandlers ())
  · have hspec : Spec (snmpRequestDispatch ⟨h, root, vs⟩ sdg) Harmless := by
      refine quiet_of_not_reached hroot.wf hr (hknown σ h) ?_
      rw [hviews, hviews]
      exact hquiet
    obtain ⟨new, hlog, hnew⟩ := hspec ⟨s, []⟩
    rw [nil_append] at hlog
    exact hlog ▸ hnew

/-! ### A user with a password -/

/-- The agent with a scalar object at `1.3` and this user. -/
def passwordAgent : Agent Unit := ⟨scalarHandlers, (mibNodeReg (.group []) [1, 3] 0).2, passwordViews⟩

/-- A request of the user without the AUTH flag. -/
def unsignedRequest (pduType : UInt8) (oid : Oid) : SnmpDatagram where
  version := 3
  msgFlags := [0]
  user := mibUserSearch passwordViews.users [0x75]
  pduHdr := { pduType := pduType }
  vbInList := [{ oid := oid, valueType := asn1TagInt, value := [5] }]

/-- A request of the user whose signature was found wrong. -/
def forgedRequest (pduType : UInt8) (oid : Oid) : SnmpDatagram :=
  { unsignedRequest pduType oid with
    msgFlags := [snmpSecurFlagAuth]
    authErr := 16 }

/-- Without a signature the user sets `1.3.0`, and with a wrong one it reads it: the response has the
value. -/
theorem authentication_bypassed :
    AuthFailed (unsignedRequest snmpReqSet [1, 3, 0]) ∧
      Event.call .set 0 [1, 3, 0] ∈ (snmpRequestDispatch passwordAgent
        (unsignedRequest snmpReqSet [1, 3, 0]) ⟨(), []⟩).2.log ∧
    AuthFailed (forgedRequest snmpReqGet [1, 3, 0]) ∧
      ((snmpRequestDispatch passwordAgent (forgedRequest snmpReqGet [1, 3, 0]) ⟨(), []⟩).1.join.map
        fun sdg => sdg.vbOutList.map VarBind.value) = some [[7]] ∧
      Event.out { oid := [1, 3, 0], vbLen := 7, valueType := asn1TagInt, value := [7] }
        (some [1, 3, 0]) ∈ (snmpRequestDispatch passwordAgent
          (forgedRequest snmpReqGet [1, 3, 0]) ⟨(), []⟩).2.log :=
  ⟨.inl (by decide), by decide +kernel, .inr (by decide), by decide +kernel,
    by decide +kernel⟩

/-- For an OID outside the views authentication is enforced. -/
theorem forgedRequest_outside_views :
    AuthFailed (forgedRequest snmpReqGet [2]) ∧ ∀ (σ : Type) (h : Handlers σ) (s : σ),
      Harmless (snmpRequestDispatch ⟨h, passwordAgent.root, passwordViews⟩
          (forgedRequest snmpReqGet [2]) ⟨s, []⟩).1
        (snmpRequestDispatch ⟨h, passwordAgent.root, passwordViews⟩
          (forgedRequest snmpReqGet [2]) ⟨s, []⟩).2.log := by
  have hfail : AuthFailed (forgedRequest snmpReqGet [2]) := .inr (by decide)
  refine ⟨hfail, ?_⟩
  have hroot : passwordAgent.root.Reachable := .reg [1, 3] 0 .init
  have hr : passwordViews.Reachable fun _ => True :=
    .userReg [1] [0x75] .write trivial (.userCreate _ _ _ _ _ _ _ .init)
  obtain ⟨u, hu, hmem, hro⟩ : ∃ u, mibUserSearch passwordViews.users [0x75] = some u ∧
      u ∈ passwordViews.users ∧ u.roViews = [[1]] :=
    ⟨_, rfl, by decide, by decide⟩
  refine (authentication_enforced_iff hroot hr (by decide) hu hmem (by decide)).mpr ?_ hfail
  refine fun _ => ⟨fun _ => .inr fun vb hvb => ?_, fun h => ?_, fun h => ?_, fun h => ?_⟩
  · obtain rfl := mem_singleton.mp hvb
    rw [hro]
    rintro (⟨hcov, -⟩ | ⟨-, hnil⟩)
    · exact absurd hcov (by decide)
    · exact hnil
  · exact absurd h (by decide)
  · exact absurd h (by decide)
  · exact absurd h (by decide)

end SmithSnmp
