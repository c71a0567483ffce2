import SmithSnmp.ErrorFields

/-!
# GETBULK and GETNEXT

GETBULK is a chain of GETNEXT requests: each row asks for the names that the row before has
returned. It keeps one search result over all rows, where every GETNEXT request starts with a new
one. What is left in it from earlier rows is not visible as long as a value is written before it is
encoded; when an encoder reads memory that the search for the varbind has not written, then it shows
bytes of an earlier row.

The memory is only ever written from its start, so the one of GETBULK is that of the GETNEXT request
over what the rows before have left.

## Main results

* `bulkResults_rounds`: the rows of GETBULK in lockstep with rounds of GETNEXT.
* `snmpBulkget_chained_iff`: when GETBULK is a chain of GETNEXT requests.
* `snmpBulkget_nonRepeaters_iff`: when GETBULK honours its non-repeaters.
-/

namespace SmithSnmp

open List Lib Traced

variable {σ : Type}

variable {sdg sdg' : SnmpDatagram} {ret : OidSearchRes} {rows : List (List OidSearchRes)}

/-! ### Memory -/

/-- Two writes are one write of what both leave. -/
theorem pokeBytes_pokeBytes (mem bs cs : List UInt8) :
    pokeBytes (pokeBytes mem bs) cs = pokeBytes mem (pokeBytes bs cs) := by
  have hlen : bs.length + (cs.length - bs.length) = cs.length + (bs.length - cs.length) := by omega
  simp only [pokeBytes, append_assoc, length_append, length_drop, drop_append,
    drop_drop, hlen]

/-- Two search results of a read with the same variable, the first one over the memory `m`. -/
structure Over (m : List UInt8) (a b : OidSearchRes) : Prop where
  read : a.request ≠ .set
  request : a.request = b.request
  tag : a.var.tag = b.var.tag
  len : a.var.len = b.var.len
  value : a.var.value = pokeBytes m b.var.value

/-- Two such search results for the same instance. -/
def OverInst (m : List UInt8) (a b : OidSearchRes) : Prop := Over m a b ∧ a.instId = b.instId

/-- Two such search results with the same name. -/
def OverOid (m : List UInt8) (a b : OidSearchRes) : Prop := Over m a b ∧ a.oid = b.oid

section Search

variable {m : List UInt8} {a b : OidSearchRes}

theorem loadValue_over (hread : a.request ≠ .set) (hreq : a.request = b.request)
    (hvalue : a.var.value = pokeBytes m b.var.value) (vb : VarBind) :
    Lockstep (Over m) (loadValue vb a : AgentM σ OidSearchRes) (loadValue vb b) := by
  rw [loadValue, loadValue]
  cases berValueDec vb.value vb.valueType with
  | none => exact Lockstep.abort
  | some dec =>
    refine Lockstep.pure ⟨hread, hreq, rfl, rfl, ?_⟩
    simp only [OidSearchRes.load, hvalue, pokeBytes_pokeBytes]

theorem Over.setTag (h : Over m a b) (tag : UInt8) {a' b' : OidSearchRes}
    (ha : a'.request = a.request) (hb : b'.request = b.request)
    (hva : a'.var = { a.var with tag := tag }) (hvb : b'.var = { b.var with tag := tag }) :
    Over m a' b' := by
  refine ⟨ha ▸ h.read, ha.trans (h.request.trans hb.symm), ?_, ?_, ?_⟩
  · rw [hva, hvb]
  · rw [hva, hvb]
    exact h.len
  · rw [hva, hvb]
    exact h.value

/-- A reply to a read is taken in the same way. -/
theorem takeReply_over (h : OverInst m a b) (path : Oid) (reply : Reply) :
    Option.Rel (OverInst m) (takeReply path a reply) (takeReply path b reply) := by
  obtain ⟨hover, hinst⟩ := h
  have hread : b.request ≠ .set := hover.request ▸ hover.read
  cases reply with
  | fail => exact .some ⟨hover.setTag _ rfl rfl rfl rfl, hinst⟩
  | ret errStat subOid val tag =>
    simp only [takeReply, hover.read, hread, if_false]
    split
    · split
      · refine .some ⟨⟨hover.read, hover.request, rfl, rfl, ?_⟩, ?_⟩
        · simp only [hover.value, pokeBytes_pokeBytes]
        · simp only [hover.request, hinst]
      · exact .none
    · exact .some ⟨hover.setTag _ rfl rfl rfl rfl, hinst⟩

theorem mibInstanceSearch_over (hd : Handlers σ) (path : Oid) (h : OverInst m a b)
    (hcallback : a.callback = b.callback) :
    Lockstep (OverInst m) (mibInstanceSearch hd path a) (mibInstanceSearch hd path b) := by
  have hread : b.request ≠ .set := h.1.request ▸ h.1.read
  simp only [mibInstanceSearch, hread, if_false, hcallback, h.1.request, h.2]
  refine (Lockstep.emit _ _).bind fun _ _ _ => (Lockstep.access _).bind ?_
  rintro reply _ rfl
  have hrel := takeReply_over h path reply
  generalize takeReply path a reply = r, takeReply path b reply = r' at hrel ⊢
  cases hrel with
  | some hab => exact Lockstep.pure hab
  | none => exact Lockstep.abort

theorem mibTreeSearch_over (hd : Handlers σ) (root : MibNode) (view orig : Oid) (h : Over m a b) :
    Lockstep (fun p q => p.1 = q.1 ∧ Over m p.2 q.2 ∧ (p.1 ≠ none → p.2.instId = q.2.instId))
      (mibTreeSearch hd root view orig a) (mibTreeSearch hd root view orig b) := by
  simp only [mibTreeSearch]
  split
  · exact Lockstep.pure ⟨rfl, h.setTag _ rfl rfl rfl rfl, fun hne => absurd rfl hne⟩
  · split
    · exact Lockstep.pure ⟨rfl, h.setTag _ rfl rfl rfl rfl, fun _ => rfl⟩
    · exact Lockstep.pure ⟨rfl, h.setTag _ rfl rfl rfl rfl, fun _ => rfl⟩
    · refine Lockstep.bind (R := OverInst m) ?_ fun r r' hr =>
        Lockstep.pure ⟨rfl, hr.1, fun _ => hr.2⟩
      exact mibInstanceSearch_over hd _ ⟨⟨h.read, h.request, h.tag, h.len, h.value⟩, rfl⟩ rfl

theorem searchLoop_over (hd : Handlers σ) (view orig : Oid) (fuel : ℕ) (st : SearchState)
    (h : Over m a b) :
    Lockstep (OverOid m) (searchLoop hd view orig fuel st a)
      (searchLoop hd view orig fuel st b) := by
  induction fuel generalizing st a b with
  | zero => exact Lockstep.abort
  | succ fuel ih =>
    have hretreat : ∀ {a b : OidSearchRes}, Over m a b →
        Lockstep (OverOid m) (retreat orig (searchLoop hd view orig fuel) st a)
          (retreat orig (searchLoop hd view orig fuel) st b) := by
      intro a b h
      rw [retreat, retreat]
      split
      · exact Lockstep.pure ⟨h.setTag _ rfl rfl rfl rfl, rfl⟩
      · exact ih _ h
    simp only [searchLoop]
    split
    · exact hretreat h
    · split
      · exact ih _ h
      · exact hretreat h
    · refine Lockstep.bind (R := OverInst m) ?_ fun r r' hr => ?_
      · exact mibInstanceSearch_over hd st.path
          ⟨⟨h.read, h.request, h.tag, h.len, h.value⟩, rfl⟩ rfl
      · obtain ⟨hover, hinst⟩ := hr
        rw [hover.tag, hinst]
        split
        · split
          · exact Lockstep.abort
          · split
            · exact hretreat ⟨hover.read, hover.request, hover.tag, hover.len, hover.value⟩
            · exact Lockstep.pure
                ⟨⟨hover.read, hover.request, hover.tag, hover.len, hover.value⟩, rfl⟩
        · exact hretreat hover

theorem mibTreeSearchNext_over (hd : Handlers σ) (root : MibNode) (view orig : Oid)
    (h : Over m a b) :
    Lockstep (OverOid m) (mibTreeSearchNext hd root view orig a)
      (mibTreeSearchNext hd root view orig b) := by
  have hprobe : Over m { a with request := .get } { b with request := .get } :=
    ⟨by simp, rfl, h.tag, h.len, h.value⟩
  have hloop : ∀ (st : SearchState) {a b a' b' : OidSearchRes}, Over m a b →
      a'.request = .getnext → b'.request = .getnext → a'.var = a.var → b'.var = b.var →
      Lockstep (OverOid m) (searchLoop hd view orig (nodeRounds root + 1) st a')
        (searchLoop hd view orig (nodeRounds root + 1) st b') := by
    intro st a b a' b' h ha hb hva hvb
    refine searchLoop_over hd view orig _ st ⟨by simp [ha], ha.trans hb.symm, ?_, ?_, ?_⟩
    · rw [hva, hvb, h.tag]
    · rw [hva, hvb, h.len]
    · rw [hva, hvb, h.value]
  simp only [mibTreeSearchNext]
  split_ifs
  case neg => exact searchLoop_over hd view orig _ _ ⟨h.read, h.request, h.tag, h.len, h.value⟩
  -- in the view and ahead of it the search starts with a probe
  all_goals
    refine (mibTreeSearch_over hd root view view hprobe).bind ?_
    rintro ⟨node, r⟩ ⟨node', r'⟩ ⟨hnode, hover, hinst⟩
    obtain rfl : node = node' := hnode
    cases node with
    | none => exact Lockstep.abort
    | some node =>
      have hinst' : r.instId = r'.instId := hinst (by simp)
      simp only [hinst']
      exact hloop _ hover rfl rfl rfl rfl

/-- **GETNEXT over memory**: the search comes to the same name and value, over the memory that it
was started with. -/
theorem mibGetnext_over (ag : Agent σ) (hsdg : sdg.sender = sdg'.sender) (oid : Oid)
    (h : Over m a b) :
    Lockstep (OverOid m) (mibGetnext ag sdg oid a) (mibGetnext ag sdg' oid b) := by
  have hviews : (readAccess ag sdg a).1 = (readAccess ag sdg' b).1 := by
    rw [readAccess_views, readAccess_views, viewsOf_congr hsdg]
  have haccess : ∀ (sdg : SnmpDatagram) (r : OidSearchRes),
      (readAccess ag sdg r).2.request = r.request ∧ (readAccess ag sdg r).2.var = r.var := by
    intro sdg r
    rw [readAccess]
    split
    · exact ⟨rfl, rfl⟩
    · exact ⟨authenStep_request sdg r, authenStep_var sdg r⟩
  have hover : Over m (readAccess ag sdg a).2 (readAccess ag sdg' b).2 := by
    obtain ⟨hreq, hvar⟩ := haccess sdg a
    obtain ⟨hreq', hvar'⟩ := haccess sdg' b
    refine ⟨hreq ▸ h.read, hreq.trans (h.request.trans hreq'.symm), ?_, ?_, ?_⟩
    · rw [hvar, hvar', h.tag]
    · rw [hvar, hvar', h.len]
    · rw [hvar, hvar', h.value]
  rw [mibGetnext, mibGetnext]
  generalize readAccess ag sdg a = p, readAccess ag sdg' b = q at hviews hover
  obtain ⟨views, r⟩ := p
  obtain ⟨views', r'⟩ := q
  obtain rfl : views = views' := hviews
  -- the loop over the views, by induction on its rounds
  have hloop : ∀ (fuel : ℕ) (view : Option Oid) {r r' : OidSearchRes}, Over m r r' →
      Lockstep (OverOid m) (viewLoop (searchNext ag oid) foundNext views oid fuel view r)
        (viewLoop (searchNext ag oid) foundNext views oid fuel view r') := by
    intro fuel
    induction fuel with
    | zero => exact fun _ _ _ _ => Lockstep.abort
    | succ fuel ih =>
      intro view r r' hover
      simp only [viewLoop]
      split
      · exact Lockstep.pure
          ⟨⟨hover.read, hover.request, hover.tag, hover.len, hover.value⟩, rfl⟩
      · refine (mibTreeSearchNext_over ag.handlers ag.root _ oid hover).bind fun s s' hs => ?_
        rw [foundNext, foundNext, hs.1.tag]
        split
        · exact Lockstep.pure hs
        · exact ih _ hs.1
  exact hloop _ none hover

/-- Such search results are answered or not answered together. -/
theorem answerRead_over (hsdg : sdg.sender = sdg'.sender) (vbInCnt vbInCnt' : UInt32)
    (h : OverOid m a b) :
    Lockstep (fun s s' => s.sender = s'.sender)
      (answerRead sdg vbInCnt a : AgentM σ SnmpDatagram) (answerRead sdg' vbInCnt' b) := by
  obtain ⟨hover, hoid⟩ := h
  have htry : berValueEncTry a.var.value a.var.len.toNat a.var.tag = none ↔
      berValueEncTry b.var.value b.var.len.toNat b.var.tag = none := by
    rw [berValueEncTry_eq_none_iff, berValueEncTry_eq_none_iff, hover.tag, hover.len]
  rw [answerRead, answerRead]
  cases ha : berValueEncTry a.var.value a.var.len.toNat a.var.tag with
  | none =>
    rw [htry.mp ha]
    exact Lockstep.abort
  | some n =>
    cases hb : berValueEncTry b.var.value b.var.len.toNat b.var.tag with
    | none =>
      rw [htry.mpr hb] at ha
      cases ha
    | some n' =>
      simp only [answer, addVarBind, hoid]
      cases berOidEncTry b.oid with
      | none => exact Lockstep.abort
      | some oidLen =>
        exact (Lockstep.emit _ _).bind fun _ _ _ => Lockstep.pure hsdg

end Search

/-! ### Values that are written -/

/-- The value of a search result is that of a handler, or there is none. -/
def OidSearchRes.Written (r : OidSearchRes) : Prop :=
  asn1TagValid r.var.tag = true → ∃ val, r.var.Holds val r.var.tag

/-- A handler has replied with an error status and the tag of a value: the tag is that of the search
result, and the value is not taken. -/
def OidSearchRes.Withheld (hd : Handlers σ) (r : OidSearchRes) : Prop :=
  r.errStat ≠ 0 ∧ asn1TagValid r.var.tag = true ∧ ∃ callback request x st sub val,
    (hd.call callback request x none st).1 = .ret r.errStat sub val r.var.tag

/-- What GETNEXT ensures of its results: they are results of GETNEXT, and their values are written
or withheld. -/
def OidSearchRes.NextOf (hd : Handlers σ) (r : OidSearchRes) : Prop :=
  r.request = .getnext ∧ (r.Written ∨ r.Withheld hd)

theorem takeReply_written {path : Oid} {r : OidSearchRes} (hread : ret.request ≠ .set)
    {reply : Reply} (h : takeReply path ret reply = some r) :
    r.Written ∨ (r.errStat ≠ 0 ∧ asn1TagValid r.var.tag = true ∧
      ∃ sub val, reply = .ret r.errStat sub val r.var.tag) := by
  cases reply with
  | fail =>
    obtain rfl := Option.some.inj h
    exact .inl nofun
  | ret errStat sub val tag =>
    simp only [takeReply, hread, if_false] at h
    split at h
    · split at h
      · obtain rfl := Option.some.inj h
        exact .inl fun _ => ⟨val, rfl, rfl, _, rfl⟩
      · cases h
    · next hnot =>
        obtain rfl := Option.some.inj h
        by_cases hvalid : asn1TagValid tag = true
        · exact .inr ⟨fun herr => hnot ⟨herr, hvalid⟩, hvalid, sub, val, rfl⟩
        · exact .inl fun h => absurd h hvalid

theorem mibInstanceSearch_nextOf (hd : Handlers σ) (path : Oid) (hret : ret.request = .getnext) :
    Ensures (mibInstanceSearch hd path ret) (OidSearchRes.NextOf hd) := by
  have hread : ret.request ≠ .set := by simp [hret]
  intro w r w' h
  simp only [mibInstanceSearch, hread, if_false] at h
  obtain ⟨_, w₁, -, h₁⟩ := bind_eq_some_iff.mp h
  obtain ⟨reply, w₂, hcall, h₂⟩ := bind_eq_some_iff.mp h₁
  have hreply : (hd.call ret.callback ret.request ret.instId none w₁.state).1 = reply := by
    rw [access_apply] at hcall
    exact Option.some.inj (Prod.mk.inj hcall).1
  cases htake : takeReply path ret reply with
  | none =>
    rw [htake] at h₂
    cases h₂
  | some r' =>
    rw [htake] at h₂
    obtain ⟨rfl, -⟩ := pure_eq_some_iff.mp h₂
    refine ⟨(takeReply_eq_some htake).1.trans hret, (takeReply_written hread htake).imp_right ?_⟩
    rintro ⟨herr, hvalid, sub, val, heq⟩
    exact ⟨herr, hvalid, _, _, _, _, sub, val, hreply.trans heq⟩

theorem searchLoop_nextOf (hd : Handlers σ) (view orig : Oid) (fuel : ℕ) (st : SearchState)
    (hret : ret.request = .getnext) :
    Ensures (searchLoop hd view orig fuel st ret) (OidSearchRes.NextOf hd) := by
  induction fuel generalizing st ret with
  | zero => exact .abort
  | succ fuel ih =>
    have hretreat : ∀ {ret : OidSearchRes}, ret.request = .getnext →
        Ensures (retreat orig (searchLoop hd view orig fuel) st ret)
          (OidSearchRes.NextOf hd) := by
      intro ret hret
      rw [retreat]
      split
      · exact .pure ⟨hret, .inl fun hvalid => absurd hvalid Bool.false_ne_true⟩
      · exact ih _ hret
    simp only [searchLoop]
    split
    · exact hretreat hret
    · split
      · exact ih _ hret
      · exact hretreat hret
    · refine Ensures.bind_of (mibInstanceSearch_nextOf hd st.path hret) fun r hr => ?_
      split
      · split
        · exact .abort
        · split
          · exact hretreat hr.1
          · exact .pure hr
      · exact hretreat hr.1

theorem mibTreeSearchNext_nextOf (hd : Handlers σ) (root : MibNode) (view orig : Oid)
    (hret : ret.request = .getnext) :
    Ensures (mibTreeSearchNext hd root view orig ret) (OidSearchRes.NextOf hd) := by
  simp only [mibTreeSearchNext]
  split_ifs
  case neg => exact searchLoop_nextOf hd view orig _ _ hret
  all_goals
    refine .bind _ fun p => ?_
    split
    · exact .abort
    · exact searchLoop_nextOf hd view orig _ _ rfl

/-- **The results of GETNEXT** for a principal with views. Without any view nothing is searched, and
the value of the request is answered. -/
theorem mibGetnext_nextOf (ag : Agent σ) (sdg : SnmpDatagram) (oid : Oid)
    (hret : ret.request = .getnext) :
    Ensures (mibGetnext ag sdg oid ret) fun r => r.request = .getnext ∧
      (viewsOf ag sdg .read ≠ [] → r.Written ∨ r.Withheld ag.handlers) := by
  have haccess : (readAccess ag sdg ret).2.request = .getnext := by
    rw [readAccess]
    split
    · exact hret
    · exact (authenStep_request sdg ret).trans hret
  rw [mibGetnext, ← readAccess_views ag sdg ret]
  generalize readAccess ag sdg ret = p at haccess ⊢
  obtain ⟨views, r⟩ := p
  refine viewLoop_ensures (P := fun r => r.request = .getnext) (fun view r hr => ?_)
    (fun r hr => hr.1) (fun r hr => hr) haccess (fun hnil => ⟨haccess, fun hne => ?_⟩) _
  · intro w s w' hrun
    obtain ⟨hreq, hwritten⟩ := mibTreeSearchNext_nextOf ag.handlers ag.root view oid hr w s w' hrun
    exact ⟨hreq, fun _ => hwritten⟩
  · exact absurd hnil hne

/-! ### Rounds of GETNEXT -/

/-- Some rounds of GETNEXT, each with the names that the one before has returned: the varbinds that
are answered. -/
def getnextRounds (ag : Agent σ) (sdg : SnmpDatagram) :
    ℕ → List VarBind → AgentM σ (List VarBind)
  | 0, _ => pure []
  | rounds + 1, vbs => do
      let resp ← snmpGetnext ag { sdg with vbInList := vbs, vbOutList := [] }
      let rest ← getnextRounds ag sdg rounds (renamed vbs (resp.vbOutList.map (·.oid)))
      pure (resp.vbOutList ++ rest)

/-- The search results of these rounds. -/
def roundResults (ag : Agent σ) (sdg : SnmpDatagram) :
    ℕ → List VarBind → AgentM σ (List (List OidSearchRes))
  | 0, _ => pure []
  | rounds + 1, vbs => do
      let row ← resultsLoop (readStep (mibGetnext ag)) vbs 0
        { sdg with vbInList := vbs, vbOutList := [] } { request := .getnext }
      let rest ← roundResults ag sdg rounds (renamed vbs (row.2.map (·.oid)))
      pure (row.2 :: rest)

theorem getnextRounds_eq (ag : Agent σ) (sdg : SnmpDatagram) (rounds : ℕ) (vbs : List VarBind) :
    getnextRounds ag sdg rounds vbs =
      (fun rows => rows.flatten.map OidSearchRes.varBind) <$> roundResults ag sdg rounds vbs := by
  induction rounds generalizing vbs with
  | zero => rfl
  | succ rounds ih =>
    simp only [getnextRounds, roundResults, snmpGetnext, readLoop_eq, map_eq_bind, bind_assoc,
      pure_bind]
    refine bind_congr fun w row w' h => ?_
    have hout := (readResults_out _ _ _ _ _ w row w' h).2
    rw [nil_append] at hout
    have hnames : row.1.vbOutList.map (·.oid) = row.2.map (·.oid) := by
      rw [hout, map_map]
      rfl
    rw [hnames, ih, map_eq_bind, bind_assoc, hout]
    simp only [pure_bind, flatten_cons, map_append]

/-- The memory that a round leaves over the memory `m`. -/
def leave (m : List UInt8) (row : List OidSearchRes) : List UInt8 :=
  pokeBytes m (row.getLastD { request := .getnext }).var.value

/-- Rows over the memory that the rows before have left, from `m` on. -/
def RowsOver : List UInt8 → List (List OidSearchRes) → List (List OidSearchRes) → Prop
  | _, [], [] => True
  | m, row :: rows, row' :: rows' =>
    List.Forall₂ (OverOid m) row row' ∧ RowsOver (leave m row') rows rows'
  | _, _, _ => False

section Rows

variable {m : List UInt8} {a b : OidSearchRes} {row row' : List OidSearchRes}

theorem resultsLoop_over (ag : Agent σ) (hsdg : sdg.sender = sdg'.sender) (vbs : List VarBind)
    (vbInCnt vbInCnt' : UInt32) (hread : a.request ≠ .set) (hreq : a.request = b.request)
    (hvalue : a.var.value = pokeBytes m b.var.value) :
    Lockstep (fun p q => p.1.sender = q.1.sender ∧ List.Forall₂ (OverOid m) p.2 q.2)
      (resultsLoop (readStep (mibGetnext ag)) vbs vbInCnt sdg a)
      (resultsLoop (readStep (mibGetnext ag)) vbs vbInCnt' sdg' b) := by
  induction vbs generalizing vbInCnt vbInCnt' sdg sdg' a b with
  | nil => exact Lockstep.pure ⟨hsdg, .nil⟩
  | cons vb vbs ih =>
    simp only [resultsLoop, readStep, bind_assoc, pure_bind]
    refine (loadValue_over hread hreq hvalue vb).bind fun a' b' hload => ?_
    refine (mibGetnext_over ag hsdg vb.oid hload).bind fun r r' hr => ?_
    refine (answerRead_over hsdg _ _ hr).bind fun s s' hs => ?_
    refine (ih hs _ _ hr.1.read hr.1.request hr.1.value).bind fun p q hpq => ?_
    exact Lockstep.pure ⟨hpq.1, .cons hr hpq.2⟩

theorem resultsLoop_nextOf (ag : Agent σ) (vbs : List VarBind) (vbInCnt : UInt32)
    (sdg : SnmpDatagram) (hret : a.request = .getnext) :
    Ensures (resultsLoop (readStep (mibGetnext ag)) vbs vbInCnt sdg a) fun p =>
      ∀ r ∈ p.2, r.request = .getnext ∧
        (viewsOf ag sdg .read ≠ [] → r.Written ∨ r.Withheld ag.handlers) := by
  induction vbs generalizing vbInCnt sdg a with
  | nil => exact .pure (by simp)
  | cons vb vbs ih =>
    simp only [resultsLoop, readStep, bind_assoc, pure_bind]
    rcases loadValue_bind vb a fun loaded =>
        mibGetnext ag sdg vb.oid loaded >>= fun r => answerRead sdg (vbInCnt + 1) r >>= fun s =>
          resultsLoop (readStep (mibGetnext ag)) vbs (vbInCnt + 1) s r >>= fun p =>
            pure (p.1, r :: p.2) with ⟨-, heq⟩ | ⟨-, dec, -, heq⟩
    · rw [heq]
      exact .abort
    rw [heq]
    have hload : (a.load vb dec).request = .getnext := hret
    refine (mibGetnext_nextOf ag sdg vb.oid hload).bind_of fun r hr => ?_
    refine Ensures.bind_of (R := fun s : SnmpDatagram => s.sender = sdg.sender)
      (fun w s w' h => (answerRead_eq_some h).1) fun s hs => ?_
    refine (ih _ s hr.1).bind_of fun p hp => .pure ?_
    rw [viewsOf_congr hs] at hp
    exact forall_mem_cons.mpr ⟨hr, hp⟩

theorem getLastD_over (h : List.Forall₂ (OverOid m) row row')
    (hvalue : a.var.value = pokeBytes m b.var.value) :
    (row.getLastD a).var.value = pokeBytes m (row'.getLastD b).var.value := by
  induction h generalizing a b with
  | nil => exact hvalue
  | cons hr hrest ih =>
    rw [getLastD_cons, getLastD_cons]
    exact ih hr.1.value

theorem getLastD_request (h : ∀ r ∈ row, r.request = .getnext) (ha : a.request = .getnext) :
    (row.getLastD a).request = .getnext := by
  induction row generalizing a with
  | nil => exact ha
  | cons r row ih =>
    rw [getLastD_cons]
    exact ih (fun r' hr' => h r' (mem_cons_of_mem r hr')) (h r mem_cons_self)

theorem names_over (h : List.Forall₂ (OverOid m) row row') :
    row.map (·.oid) = row'.map (·.oid) := by
  induction h with
  | nil => rfl
  | cons hr hrest ih => rw [map_cons, map_cons, ih, hr.2]

/-- **The rows of GETBULK in lockstep with rounds of GETNEXT.** The induction is over the rows; the
memory below is what the rows before have left. -/
theorem bulkResults_rounds (ag : Agent σ) (sdg : SnmpDatagram) (rounds : ℕ) (st : BulkState)
    (hsdg : st.sdg.sender = sdg.sender) (hret : st.ret.request = .getnext) :
    Lockstep (fun p q => RowsOver st.ret.var.value p.2 q) (bulkResults ag rounds st)
      (roundResults ag sdg rounds st.vbs) := by
  induction rounds generalizing st with
  | zero => exact Lockstep.pure trivial
  | succ rounds ih =>
    have hread : st.ret.request ≠ .set := by simp [hret]
    have hsdg' : st.sdg.sender =
        SnmpDatagram.sender { sdg with vbInList := st.vbs, vbOutList := [] } := hsdg
    have hover : Lockstep
        (fun p q => p.1.sender = q.1.sender ∧ List.Forall₂ (OverOid st.ret.var.value) p.2 q.2)
        (resultsLoop (readStep (mibGetnext ag)) st.vbs st.vbInCnt st.sdg st.ret)
        (resultsLoop (readStep (mibGetnext ag)) st.vbs 0
          { sdg with vbInList := st.vbs, vbOutList := [] } { request := .getnext }) :=
      resultsLoop_over ag hsdg' st.vbs st.vbInCnt 0 hread hret rfl
    refine (hover.and_ensures (P := fun p => p.1.sender = st.sdg.sender ∧
      ∀ r ∈ p.2, r.request = .getnext) ?_).bind ?_
    · intro w p w' h
      refine ⟨(readResults_out _ _ _ _ _ w p w' h).1, fun r hr => ?_⟩
      exact (resultsLoop_nextOf ag _ _ _ hret w p w' h r hr).1
    rintro p q ⟨⟨-, hover⟩, hsender, hnext⟩
    have hret' : (st.after p).ret.request = .getnext :=
      getLastD_request hnext hret
    have hleft : (st.after p).ret.var.value = leave st.ret.var.value q.2 :=
      getLastD_over (b := { request := .getnext }) hover rfl
    have hvbs : (st.after p).vbs = renamed st.vbs (q.2.map (·.oid)) := by
      rw [BulkState.after, names_over hover]
    have hrest := ih (st.after p) (hsender.trans hsdg) hret'
    rw [hleft, hvbs] at hrest
    exact hrest.bind fun p' q' hrows => Lockstep.pure ⟨hover, hrows⟩

end Rows

/-! ### GETBULK as a chain of GETNEXT -/

/-- The value of a search result is encoded in the same way over the memory `m`. -/
def Fresh (m : List UInt8) (r : OidSearchRes) : Prop :=
  berValueEnc (pokeBytes m r.var.value) r.var.len.toNat r.var.tag =
    berValueEnc r.var.value r.var.len.toNat r.var.tag

/-- No value of a round that is `Exposed` shows what the rounds before have left in memory, from `m`
on. -/
def FreshRows (Exposed : OidSearchRes → Prop) : List UInt8 → List (List OidSearchRes) → Prop
  | _, [] => True
  | m, row :: rows =>
    (∀ r ∈ row, Exposed r → Fresh m r) ∧ FreshRows Exposed (leave m row) rows

/-- Only the values that are not fresh anyway have to be looked at. -/
theorem freshRows_of_forall {Exposed : OidSearchRes → Prop}
    (h : ∀ row ∈ rows, ∀ r ∈ row, Exposed r → ∀ m, Fresh m r) (m : List UInt8) :
    FreshRows Exposed m rows := by
  induction rows generalizing m with
  | nil => trivial
  | cons row rows ih =>
    obtain ⟨hrow, hrows⟩ := forall_mem_cons.mp h
    exact ⟨fun r hr hexp => hrow r hr hexp m, ih hrows _⟩

theorem freshRows_congr {Exposed : OidSearchRes → Prop}
    (h : ∀ row ∈ rows, ∀ r ∈ row, ¬ Exposed r → ∀ m, Fresh m r) (m : List UInt8) :
    FreshRows (fun _ => True) m rows ↔ FreshRows Exposed m rows := by
  induction rows generalizing m with
  | nil => exact Iff.rfl
  | cons row rows ih =>
    obtain ⟨hrow, hrows⟩ := forall_mem_cons.mp h
    refine and_congr (forall₂_congr fun r hr => ?_) (ih hrows _)
    exact ⟨fun hfresh _ => hfresh trivial, fun hfresh _ =>
      (Classical.em (Exposed r)).elim hfresh fun hno => hrow r hr hno m⟩

section Fresh

variable {m : List UInt8} {a b : OidSearchRes} {row row' : List OidSearchRes}

theorem varBind_eq_iff (h : OverOid m a b) : a.varBind = b.varBind ↔ Fresh m b := by
  obtain ⟨hover, hoid⟩ := h
  simp only [OidSearchRes.varBind, hoid, hover.tag, hover.len, hover.value, Fresh]
  constructor
  · intro heq
    exact (VarBind.mk.inj heq).2.2.2.1
  · intro heq
    -- the size that is reserved is determined by the octets
    have hroom : ∀ mem : List UInt8,
        (berValueEncTry mem b.var.len.toNat b.var.tag).getD 0 =
          if b.var.tag = asn1TagObjid ∧ 255 < b.var.len.toNat then 0
          else if b.var.tag = asn1TagObjid then
            (berValueEnc mem b.var.len.toNat b.var.tag).length % 256
          else (berValueEnc mem b.var.len.toNat b.var.tag).length := by
      intro mem
      cases htry : berValueEncTry mem b.var.len.toNat b.var.tag with
      | none => rw [if_pos ((berValueEncTry_eq_none_iff _ _ _).mp htry), Option.getD_none]
      | some n =>
        have hgo : ¬ (b.var.tag = asn1TagObjid ∧ 255 < b.var.len.toNat) := by
          rw [← berValueEncTry_eq_none_iff mem, htry]
          exact Option.some_ne_none n
        rw [if_neg hgo, Option.getD_some, berValueEncTry_eq htry]
    rw [hroom, hroom, heq]

theorem row_eq_iff (h : List.Forall₂ (OverOid m) row row') :
    row.map OidSearchRes.varBind = row'.map OidSearchRes.varBind ↔
      ∀ r ∈ row', True → Fresh m r := by
  induction h with
  | nil => simp
  | cons hr hrest ih =>
    rw [map_cons, map_cons, cons_eq_cons, ih, varBind_eq_iff hr,
      forall_mem_cons, forall_const]

/-- The rows are answered alike exactly when nothing shows what was left. -/
theorem rows_eq_iff {rows' : List (List OidSearchRes)} (h : RowsOver m rows rows') :
    rows.flatten.map OidSearchRes.varBind = rows'.flatten.map OidSearchRes.varBind ↔
      FreshRows (fun _ => True) m rows' := by
  induction rows' generalizing m rows with
  | nil =>
    cases rows with
    | nil => simp [FreshRows]
    | cons row rows => exact h.elim
  | cons row' rows' ih =>
    cases rows with
    | nil => exact h.elim
    | cons row rows =>
      obtain ⟨hrow, hrows⟩ := h
      have hlen : (row.map OidSearchRes.varBind).length =
          (row'.map OidSearchRes.varBind).length := by
        rw [length_map, length_map, hrow.length_eq]
      rw [flatten_cons, flatten_cons, map_append, map_append, FreshRows,
        ← row_eq_iff hrow, ← ih hrows]
      exact ⟨fun heq => append_inj heq hlen, fun heq => by rw [heq.1, heq.2]⟩

/-- A written value does not show what was left. -/
theorem OidSearchRes.Written.fresh (h : a.Written) (m : List UInt8) : Fresh m a := by
  by_cases hvalid : asn1TagValid a.var.tag = true
  · obtain ⟨val, -, hlen, old, hvalue⟩ := h hvalid
    rw [Fresh, hvalue, hlen, ← pokeBytes_pokeBytes, (berValue_pokeBytes _ _ val).1,
      (berValue_pokeBytes old _ val).1]
  · have hnone : ∀ mem, berValueEnc mem a.var.len.toNat a.var.tag = [] := by
      intro mem
      have hne : ∀ tag : UInt8, asn1TagValid tag = true → a.var.tag ≠ tag := by
        rintro tag htag heq
        exact hvalid (heq ▸ htag)
      rw [berValueEnc, if_neg (not_or.mpr ⟨hne _ rfl, hne _ rfl⟩),
        if_neg (not_or.mpr ⟨hne _ rfl, hne _ rfl⟩), if_neg (hne _ rfl),
        if_neg (not_or.mpr ⟨hne _ rfl, hne _ rfl⟩)]
    rw [Fresh, hnone, hnone]

end Fresh

/-- The varbinds that GETBULK answers are those of `rounds` rounds of GETNEXT. -/
def BulkChained (ag : Agent σ) (sdg : SnmpDatagram) (rounds : ℕ) (w : World Event σ) : Prop :=
  (snmpBulkget ag sdg w).1.map (·.vbOutList) =
    (getnextRounds ag sdg rounds sdg.vbInList w).1.map (sdg.vbOutList ++ ·)

/-- GETBULK shows the same as GETNEXT exactly when no value shows what was left. -/
theorem bulkChained_iff (ag : Agent σ) (sdg : SnmpDatagram) (w : World Event σ) :
    BulkChained ag sdg (bulkRows sdg) w ↔
      ∀ rows, (roundResults ag sdg (bulkRows sdg) sdg.vbInList w).1 = some rows →
        FreshRows (fun _ => True) [] rows := by
  have hrel := (bulkResults_rounds ag sdg (bulkRows sdg) (bulkStart sdg) rfl rfl w w rfl).1
  have hout := bulkResults_out ag (bulkRows sdg) (bulkStart sdg) w
  rw [BulkChained, snmpBulkget_eq, map_eq_bind, bind_pure_fst, getnextRounds_eq, map_eq_bind,
    bind_pure_fst]
  rcases hbulk : bulkResults ag (bulkRows sdg) (bulkStart sdg) w with ⟨r, w'⟩
  rw [hbulk] at hrel hout
  have hvbs : (bulkStart sdg).vbs = sdg.vbInList := rfl
  rw [hvbs] at hrel
  generalize (roundResults ag sdg (bulkRows sdg) sdg.vbInList w).1 = r' at hrel ⊢
  cases hrel with
  | none => simp
  | @some p rows hrows =>
    have hlist : p.1.sdg.vbOutList = sdg.vbOutList ++ p.2.flatten.map OidSearchRes.varBind :=
      (hout p w' rfl).1
    simp only [Option.map_some, Option.some.injEq, hlist, append_cancel_left_eq, forall_eq']
    exact rows_eq_iff hrows

/-- The number of rows is the max-repetitions of the request, if that is not negative. -/
theorem bulkRows_of_nonneg {M : ℕ} (h : sdg.pduHdr.errIdx.toInt = M) : bulkRows sdg = M := by
  have hnonneg : 0 ≤ sdg.pduHdr.errIdx := by
    rw [Int32.le_iff_toInt_le, h]
    exact Int.natCast_nonneg M
  rw [bulkRows, Int32.toNat_toUInt32_of_le hnonneg, ← Int32.toNat_toInt, h, Int.toNat_natCast]

/-- The values that can show what was left: those for which a handler has replied with an error
status and the tag of a value, and all values of a principal without views. -/
def Exposed (ag : Agent σ) (sdg : SnmpDatagram) (r : OidSearchRes) : Prop :=
  viewsOf ag sdg .read = [] ∨ r.Withheld ag.handlers

/-- The other values of a round are fresh. -/
theorem roundResults_fresh (ag : Agent σ) (sdg : SnmpDatagram) (rounds : ℕ)
    (vbs : List VarBind) : Ensures (roundResults ag sdg rounds vbs) fun rows =>
      ∀ row ∈ rows, ∀ r ∈ row, ¬ Exposed ag sdg r → ∀ m, Fresh m r := by
  induction rounds generalizing vbs with
  | zero => exact .pure (by simp)
  | succ rounds ih =>
    have hrow := resultsLoop_nextOf ag vbs 0 { sdg with vbInList := vbs, vbOutList := [] }
      (a := { request := .getnext }) rfl
    refine hrow.bind_of fun row hrow => (ih _).bind_of fun rest hrest => .pure ?_
    refine forall_mem_cons.mpr ⟨fun r hr hexp m => ?_, hrest⟩
    obtain ⟨hviews, hheld⟩ := not_or.mp hexp
    exact (((hrow r hr).2 hviews).resolve_right hheld).fresh m

/-- **GETBULK is a chain of GETNEXT requests** exactly when no handler has replied to a round of
GETNEXT with an error status and the tag of a value that is then encoded from memory which the
rounds before have left; without views, exactly when no value of the request is. -/
theorem snmpBulkget_chained_iff (ag : Agent σ) (sdg : SnmpDatagram) (M : ℕ)
    (hM : sdg.pduHdr.errIdx.toInt = M) (w : World Event σ) :
    BulkChained ag sdg M w ↔
      ∀ rows, (roundResults ag sdg M sdg.vbInList w).1 = some rows →
        FreshRows (Exposed ag sdg) [] rows := by
  rw [← bulkRows_of_nonneg hM, bulkChained_iff]
  refine forall₂_congr fun rows hrows => freshRows_congr ?_ []
  exact roundResults_fresh ag sdg _ _ w rows _ (Prod.ext hrows rfl)

/-- Two scalars; the second one fails with a value. -/
def secondFails : LuaGroup Unit where
  objs := oneScalar.insert 2 (.scalar (.settable asn1TagInt))
  getF path _ st :=
    (some (if path = [1] then (.num 42, none) else (.num 7, some snmpErrStatGenErr)), st)
  setF _ _ _ st := (some none, st)

/-- A GETBULK request for what is behind `1.3`. -/
def scalarsBulk (nonRepeaters repetitions : Int32) : SnmpDatagram where
  contextName := [0x70]
  pduHdr := { pduType := snmpReqBulkget, errStat := nonRepeaters, errIdx := repetitions }
  vbInList := [{ oid := [1, 3], valueType := asn1TagNul, value := [] }]

/-- Without an error status the scalar is answered as by GETNEXT requests. -/
theorem snmpBulkget_chained_scalar :
    (scalarsBulk 0 2).pduHdr.errIdx.toInt = (2 : ℕ) ∧
      BulkChained scalarReader (scalarsBulk 0 2) 2 ⟨42, []⟩ := by
  have herr : (roundResults scalarReader (scalarsBulk 0 2) 2 (scalarsBulk 0 2).vbInList
      ⟨42, []⟩).1.map (fun rows => rows.map fun row => row.map (·.errStat)) =
        some [[0], [0]] := by
    decide +kernel
  refine ⟨rfl, (snmpBulkget_chained_iff scalarReader (scalarsBulk 0 2) 2 rfl ⟨42, []⟩).mpr ?_⟩
  intro rows hrows
  rw [hrows] at herr
  refine freshRows_of_forall (fun row hrow r hr hexp => ?_) []
  have hmem : row.map (·.errStat) ∈ [[(0 : Int32)], [0]] :=
    Option.some.inj herr ▸ mem_map_of_mem hrow
  have hzero : r.errStat = 0 := by
    have hr' : r.errStat ∈ row.map (·.errStat) := mem_map_of_mem hr
    rcases mem_cons.mp hmem with h | h
    · rw [h] at hr'
      exact mem_singleton.mp hr'
    · rw [mem_singleton.mp h] at hr'
      exact mem_singleton.mp hr'
  rcases hexp with hnil | hheld
  · exact absurd hnil (by decide)
  · exact absurd hzero hheld.1

/-- **GETBULK shows the value of an earlier row**: in the second row, where the second GETNEXT
request has a zero. -/
theorem secondFails_not_chained :
    let ag := luaAgent oneScalarRoot (oneReadView [1]) fun _ => secondFails
    let sdg := scalarsBulk 0 2
    (snmpBulkget ag sdg ⟨(), []⟩).1.map (·.vbOutList.map (·.value)) = some [[42], [42]] ∧
      (getnextRounds ag sdg 2 sdg.vbInList ⟨(), []⟩).1.map (·.map (·.value)) =
        some [[42], [0]] ∧
      ¬ BulkChained ag sdg 2 ⟨(), []⟩ := by
  intro ag sdg
  have hbulk : (snmpBulkget ag sdg ⟨(), []⟩).1.map (·.vbOutList.map (·.value)) =
      some [[42], [42]] := by
    decide +kernel
  have hrounds : (getnextRounds ag sdg 2 sdg.vbInList ⟨(), []⟩).1.map (·.map (·.value)) =
      some [[42], [0]] := by
    decide +kernel
  refine ⟨hbulk, hrounds, fun hchained => ?_⟩
  have hvalues := congrArg (Option.map (List.map VarBind.value)) hchained
  rw [Option.map_map, Option.map_map] at hvalues
  have hsame := hbulk.symm.trans (hvalues.trans hrounds)
  exact absurd hsame (by decide)

/-! ### Non-repeaters -/

section NonRepeaters

variable {ag : Agent σ} {sdg resp : SnmpDatagram} {w w' : World Event σ}

/-- GETBULK as its header asks for it: one row for the non-repeaters, and then the rows of the other
varbinds. A negative number of repetitions counts as none. -/
def honouredBulk (ag : Agent σ) (sdg : SnmpDatagram) : AgentM σ BulkState := do
  let k := sdg.pduHdr.errStat.toInt.toNat
  let st ← snmpBulkgetRow ag [] (sdg.vbInList.take k) (bulkStart sdg)
  snmpBulkgetLoop ag sdg.pduHdr.errIdx.toInt.toNat { st with vbs := sdg.vbInList.drop k }

/-- The response has the varbinds that the header asks for. -/
def HonoursNonRepeaters (ag : Agent σ) (sdg : SnmpDatagram) (w : World Event σ)
    (resp : SnmpDatagram) : Prop :=
  ∃ st w', honouredBulk ag sdg w = (some st, w') ∧ resp.vbOutList = st.sdg.vbOutList

/-- A row over two parts of the varbinds. -/
theorem snmpBulkgetRow_append (ag : Agent σ) (done l r : List VarBind) (st : BulkState) :
    snmpBulkgetRow ag done (l ++ r) st =
      snmpBulkgetRow ag done l st >>= fun st' => snmpBulkgetRow ag st'.vbs r st' := by
  induction l generalizing done st with
  | nil =>
    rw [nil_append, snmpBulkgetRow, pure_bind, snmpBulkgetRow_eq, snmpBulkgetRow_eq]
  | cons vb l ih =>
    simp only [cons_append, snmpBulkgetRow, ih, bind_assoc]

theorem snmpBulkgetLoop_nil (ag : Agent σ) (repeats : ℕ) {st : BulkState} (h : st.vbs = []) :
    snmpBulkgetLoop ag repeats st = pure st := by
  induction repeats with
  | zero => rfl
  | succ repeats ih =>
    obtain ⟨vbs, vbInCnt, sdg, ret⟩ := st
    obtain rfl : vbs = [] := h
    rw [snmpBulkgetLoop, snmpBulkgetRow, pure_bind, ih]

/-- A row answers every varbind once. -/
theorem snmpBulkgetRow_length (ag : Agent σ) (done vbs : List VarBind) (st : BulkState) :
    Ensures (snmpBulkgetRow ag done vbs st) fun st' =>
      st'.sdg.vbOutList.length = st.sdg.vbOutList.length + vbs.length := by
  intro w st' w' h
  rw [snmpBulkgetRow_eq, map_eq_bind] at h
  obtain ⟨row, w₁, hrow, hpure⟩ := bind_eq_some_iff.mp h
  obtain ⟨rfl, -⟩ := pure_eq_some_iff.mp hpure
  have hlen := resultsLoop_length vbs _ _ _ w row w₁ hrow
  have hout := (readResults_out _ _ _ _ _ w row w₁ hrow).2
  show row.1.vbOutList.length = _
  rw [hout, length_append, length_map, hlen]

/-- Rows answer every varbind once each. -/
theorem snmpBulkgetLoop_length (ag : Agent σ) (repeats : ℕ) (st : BulkState) :
    Ensures (snmpBulkgetLoop ag repeats st) fun st' =>
      st'.sdg.vbOutList.length = st.sdg.vbOutList.length + repeats * st.vbs.length := by
  intro w st' w' h
  rw [snmpBulkgetLoop_eq, map_eq_bind] at h
  obtain ⟨res, w₁, hres, hpure⟩ := bind_eq_some_iff.mp h
  obtain ⟨rfl, -⟩ := pure_eq_some_iff.mp hpure
  obtain ⟨hout, hrows, hrow⟩ := bulkResults_out ag _ _ w res w₁ hres
  have hlens : res.2.map List.length = List.replicate repeats st.vbs.length := by
    rw [eq_replicate_iff, length_map]
    refine ⟨hrows, fun n hn => ?_⟩
    obtain ⟨row, hmem, rfl⟩ := mem_map.mp hn
    exact hrow row hmem
  rw [hout, length_append, length_map, length_flatten, hlens,
    sum_replicate_nat]

theorem snmpBulkget_length (h : snmpBulkget ag sdg w = (some resp, w')) :
    resp.vbOutList.length = sdg.vbOutList.length + bulkRows sdg * sdg.vbInList.length := by
  obtain ⟨st, w₁, hloop, hpure⟩ := bind_eq_some_iff.mp h
  obtain ⟨rfl, -⟩ := pure_eq_some_iff.mp hpure
  exact snmpBulkgetLoop_length ag _ _ w st w₁ hloop

/-- **The number of varbinds** that the header of GETBULK asks for. -/
theorem honouredBulk_length {st : BulkState} (h : honouredBulk ag sdg w = (some st, w')) :
    st.sdg.vbOutList.length = sdg.vbOutList.length +
      (min sdg.pduHdr.errStat.toInt.toNat sdg.vbInList.length + sdg.pduHdr.errIdx.toInt.toNat *
        (sdg.vbInList.length - min sdg.pduHdr.errStat.toInt.toNat sdg.vbInList.length)) := by
  obtain ⟨st₁, w₁, hrow, hloop⟩ := bind_eq_some_iff.mp h
  have hfirst := snmpBulkgetRow_length ag _ _ _ w st₁ w₁ hrow
  have hrest := snmpBulkgetLoop_length ag _ _ w₁ st w' hloop
  have hstart : (bulkStart sdg).sdg.vbOutList = sdg.vbOutList := rfl
  have hdrop : sdg.vbInList.length - min sdg.pduHdr.errStat.toInt.toNat sdg.vbInList.length =
      sdg.vbInList.length - sdg.pduHdr.errStat.toInt.toNat := by
    omega
  rw [hrest, hfirst, hstart, length_take, length_drop, hdrop, Nat.add_assoc]

/-- With one repetition all varbinds are asked for once. -/
theorem honouredBulk_of_once (ag : Agent σ) (honce : sdg.pduHdr.errIdx = 1) :
    (fun st : BulkState => st.sdg.vbOutList) <$> honouredBulk ag sdg =
      (fun resp : SnmpDatagram => resp.vbOutList) <$> snmpBulkget ag sdg := by
  have hbulk : snmpBulkget ag sdg = snmpBulkgetRow ag [] sdg.vbInList (bulkStart sdg) >>= fun st =>
      pure { st.sdg with vbInList := st.vbs } := by
    have hrows : sdg.pduHdr.errIdx.toUInt32.toNat = 1 := by rw [honce]; rfl
    simp only [snmpBulkget, hrows, snmpBulkgetLoop, bind_assoc, pure_bind]
    rfl
  have hrows : sdg.pduHdr.errIdx.toInt.toNat = 1 := by rw [honce]; rfl
  have hsplit := snmpBulkgetRow_append ag [] (sdg.vbInList.take sdg.pduHdr.errStat.toInt.toNat)
    (sdg.vbInList.drop sdg.pduHdr.errStat.toInt.toNat) (bulkStart sdg)
  rw [take_append_drop] at hsplit
  simp only [honouredBulk, hbulk, hrows, hsplit, snmpBulkgetLoop, map_eq_bind, bind_assoc,
    pure_bind]
  -- the names that a row leaves behind do not matter in the last row
  refine bind_congr fun _ st _ _ => ?_
  simp only [snmpBulkgetRow_eq, map_eq_bind, bind_assoc, pure_bind]

/-- The number of rows is that of the repetitions, and huge when that is negative. -/
theorem bulkRows_cases (sdg : SnmpDatagram) :
    bulkRows sdg = sdg.pduHdr.errIdx.toInt.toNat ∨
      (sdg.pduHdr.errIdx.toInt.toNat = 0 ∧ 2 ≤ bulkRows sdg) := by
  by_cases hneg : sdg.pduHdr.errIdx.toInt < 0
  · refine .inr ⟨by omega, ?_⟩
    have hcond := BitVec.toInt_eq_toNat_cond sdg.pduHdr.errIdx.toBitVec
    have hrows : bulkRows sdg = sdg.pduHdr.errIdx.toBitVec.toNat := rfl
    rw [Int32.toInt] at hneg
    split at hcond <;> omega
  · exact .inl (bulkRows_of_nonneg (Int.toNat_of_nonneg (not_lt.mp hneg)).symm)

/-- The varbinds of all rows are as many as asked for with non-repeaters in one row only. -/
theorem rows_eq_one {rows m n k : ℕ} (hk : 1 ≤ k) (hkn : k ≤ n)
    (hrows : rows = m ∨ (m = 0 ∧ 2 ≤ rows)) (h : k + m * (n - k) = rows * n) : rows = 1 := by
  obtain ⟨d, rfl⟩ := Nat.exists_eq_add_of_le hkn
  rw [Nat.add_sub_cancel_left, Nat.mul_add] at h
  rcases hrows with rfl | ⟨rfl, htwo⟩
  · have hone : k * 1 = k * rows := by rw [Nat.mul_one, Nat.mul_comm]; omega
    exact (Nat.eq_of_mul_eq_mul_left hk hone).symm
  · have hle : 2 * k ≤ rows * k := Nat.mul_le_mul_right k htwo
    omega

/-- **GETBULK honours its non-repeaters** exactly when it asks for nothing or has one repetition. -/
theorem snmpBulkget_nonRepeaters_iff (hN : 1 ≤ sdg.pduHdr.errStat.toInt)
    (h : snmpBulkget ag sdg w = (some resp, w')) :
    HonoursNonRepeaters ag sdg w resp ↔ sdg.vbInList = [] ∨ sdg.pduHdr.errIdx = 1 := by
  constructor
  · rintro ⟨st, w₁, hst, hout⟩
    have hlen := snmpBulkget_length h
    rw [hout, honouredBulk_length hst] at hlen
    rcases hvbs : sdg.vbInList with _ | ⟨vb, vbs⟩
    · exact .inl rfl
    · rw [hvbs, length_cons] at hlen
      have hone : bulkRows sdg = 1 :=
        rows_eq_one (by omega) (Nat.min_le_right _ _) (bulkRows_cases sdg)
          (Nat.add_left_cancel hlen)
      have heq : sdg.pduHdr.errIdx.toUInt32 = 1 := UInt32.toNat_inj.mp hone
      exact .inr (congrArg UInt32.toInt32 heq)
  · rintro (hnil | honce)
    · rw [snmpBulkget, snmpBulkgetLoop_nil ag _ hnil, pure_bind] at h
      obtain ⟨rfl, -⟩ := pure_eq_some_iff.mp h
      refine ⟨{ bulkStart sdg with vbs := [] }, w, ?_, rfl⟩
      rw [honouredBulk, hnil, take_nil, drop_nil, snmpBulkgetRow, pure_bind,
        snmpBulkgetLoop_nil ag _ rfl]
      rfl
    · have hsame := congrFun (honouredBulk_of_once ag honce) w
      rw [map_eq_bind, map_eq_bind, bind_eq_of_some h] at hsame
      obtain ⟨st, w₁, hst, hpure⟩ := bind_eq_some_iff.mp hsame
      exact ⟨st, w₁, hst, (pure_eq_some_iff.mp hpure).1.symm⟩

end NonRepeaters

/-- The answers of the scalar agent to GETBULK with one non-repeater. -/
theorem scalarsBulk_runs {repetitions : Int32} {values : List (List UInt8)}
    (hrun : (snmpBulkget scalarReader (scalarsBulk 1 repetitions) ⟨42, []⟩).1.map
      (·.vbOutList.map (·.value)) = some values) :
    ∃ resp w', snmpBulkget scalarReader (scalarsBulk 1 repetitions) ⟨42, []⟩ = (some resp, w') ∧
      resp.vbOutList.map (·.value) = values := by
  obtain ⟨resp, hresp, hvalues⟩ := Option.map_eq_some_iff.mp hrun
  exact ⟨resp, _, Prod.ext hresp rfl, hvalues⟩

theorem snmpBulkget_nonRepeaters_once :
    ∃ resp w', snmpBulkget scalarReader (scalarsBulk 1 1) ⟨42, []⟩ = (some resp, w') ∧
      1 ≤ (scalarsBulk 1 1).pduHdr.errStat.toInt ∧
      HonoursNonRepeaters scalarReader (scalarsBulk 1 1) ⟨42, []⟩ resp := by
  have hrun : (snmpBulkget scalarReader (scalarsBulk 1 1) ⟨42, []⟩).1.map
      (·.vbOutList.map (·.value)) = some [[42]] := by
    decide +kernel
  obtain ⟨resp, w', h, -⟩ := scalarsBulk_runs hrun
  exact ⟨resp, w', h, by decide, (snmpBulkget_nonRepeaters_iff (by decide) h).mpr (.inr rfl)⟩

/-- **The non-repeater is repeated**: with two repetitions its varbind is answered twice. -/
theorem scalarsBulk_repeats :
    ∃ resp w', snmpBulkget scalarReader (scalarsBulk 1 2) ⟨42, []⟩ = (some resp, w') ∧
      resp.vbOutList.length = 2 ∧
      ¬ HonoursNonRepeaters scalarReader (scalarsBulk 1 2) ⟨42, []⟩ resp := by
  have hrun : (snmpBulkget scalarReader (scalarsBulk 1 2) ⟨42, []⟩).1.map
      (·.vbOutList.map (·.value)) = some [[42], []] := by
    decide +kernel
  obtain ⟨resp, w', h, hvalues⟩ := scalarsBulk_runs hrun
  have htwo : resp.vbOutList.length = 2 := by
    rw [← length_map VarBind.value, hvalues]
    rfl
  refine ⟨resp, w', h, htwo, ?_⟩
  rintro ⟨st, w₁, hst, hout⟩
  have hone := honouredBulk_length hst
  rw [← hout, htwo] at hone
  exact absurd hone (by decide)

end SmithSnmp
