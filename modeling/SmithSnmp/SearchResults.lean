import SmithSnmp.MsgTrace

/-!
# The Search Results behind a Response

The loops over the varbinds of a request keep one search result, which every varbind finds as the
one before has left it. Here the loops are told with the search results of all varbinds, as they are
when the varbind is answered. The response is a function of them: they give its varbinds one by one,
and the first one with an error status gives its error fields.

## Main results

* `snmpRequestDispatch_eq`: the dispatcher, with its search results.
* `readResults_out`, `bulkResults_out`: the varbinds of a response.
* `requestResults_hdr`: the header of a response.
-/

namespace SmithSnmp

open List Lib Traced

variable {σ : Type}

variable {ag : Agent σ} {sdg resp : SnmpDatagram} {w w' : World Event σ} {vbInCnt : UInt32}
  {ret : OidSearchRes}

/-! ### Loops with their results -/

/-- The search for a varbind and its answer, in `snmp_get`, `snmp_getnext` and `snmp_bulkget`. -/
def readStep (find : SnmpDatagram → Oid → OidSearchRes → AgentM σ OidSearchRes) (vb : VarBind)
    (vbInCnt : UInt32) (sdg : SnmpDatagram) (ret : OidSearchRes) :
    AgentM σ (SnmpDatagram × OidSearchRes) := do
  let ret ← loadValue vb ret
  let ret ← find sdg vb.oid ret
  let sdg ← answerRead sdg vbInCnt ret
  pure (sdg, ret)

/-- The search for a varbind and its answer, in `snmp_set`. -/
def snmpSetStep (ag : Agent σ) (vb : VarBind) (vbInCnt : UInt32) (sdg : SnmpDatagram)
    (ret : OidSearchRes) : AgentM σ (SnmpDatagram × OidSearchRes) := do
  let ret ← loadValue vb ret
  let ret ← mibSet ag sdg vb.oid ret
  answerSet sdg vb vbInCnt ret

/-- A loop over varbinds, with the search results of all of them. -/
def resultsLoop
    (step : VarBind → UInt32 → SnmpDatagram → OidSearchRes →
      AgentM σ (SnmpDatagram × OidSearchRes)) :
    List VarBind → UInt32 → SnmpDatagram → OidSearchRes →
      AgentM σ (SnmpDatagram × List OidSearchRes)
  | [], _, sdg, _ => pure (sdg, [])
  | vb :: vbs, vbInCnt, sdg, ret => do
      let res ← step vb (vbInCnt + 1) sdg ret
      let rest ← resultsLoop step vbs (vbInCnt + 1) res.1 res.2
      pure (rest.1, res.2 :: rest.2)

/-- `snmp_get` and `snmp_getnext` are such a loop. -/
theorem readLoop_eq (find : SnmpDatagram → Oid → OidSearchRes → AgentM σ OidSearchRes)
    (vbs : List VarBind) (vbInCnt : UInt32) (sdg : SnmpDatagram) (ret : OidSearchRes) :
    readLoop find vbs vbInCnt sdg ret =
      Prod.fst <$> resultsLoop (readStep find) vbs vbInCnt sdg ret := by
  induction vbs generalizing vbInCnt sdg ret with
  | nil => rfl
  | cons vb vbs ih =>
    simp only [readLoop, resultsLoop, readStep, ih, map_eq_bind, bind_assoc, pure_bind]

/-- `snmp_set` is such a loop. -/
theorem snmpSetLoop_eq (ag : Agent σ) (vbs : List VarBind) (vbInCnt : UInt32) (sdg : SnmpDatagram)
    (ret : OidSearchRes) :
    snmpSetLoop ag vbs vbInCnt sdg ret =
      Prod.fst <$> resultsLoop (snmpSetStep ag) vbs vbInCnt sdg ret := by
  induction vbs generalizing vbInCnt sdg ret with
  | nil => rfl
  | cons vb vbs ih =>
    simp only [snmpSetLoop, resultsLoop, snmpSetStep, ih, map_eq_bind, bind_assoc, pure_bind]

/-- Varbinds with other names. -/
def renamed (vbs : List VarBind) (names : List Oid) : List VarBind :=
  List.zipWith (fun vb oid => { vb with oid := oid }) vbs names

/-- The state of GETBULK behind a row. -/
def BulkState.after (st : BulkState) (row : SnmpDatagram × List OidSearchRes) : BulkState where
  vbs := renamed st.vbs (row.2.map (·.oid))
  vbInCnt := st.vbInCnt + UInt32.ofNat st.vbs.length
  sdg := row.1
  ret := row.2.getLastD st.ret

/-- The rows of GETBULK, with their search results. -/
def bulkResults (ag : Agent σ) : ℕ → BulkState → AgentM σ (BulkState × List (List OidSearchRes))
  | 0, st => pure (st, [])
  | repeats + 1, st => do
      let row ← resultsLoop (readStep (mibGetnext ag)) st.vbs st.vbInCnt st.sdg st.ret
      let rest ← bulkResults ag repeats (st.after row)
      pure (rest.1, row.2 :: rest.2)

/-- The counter of the varbinds goes on behind the first one. -/
theorem add_one_add_ofNat (n : UInt32) (k : ℕ) :
    n + 1 + UInt32.ofNat k = n + UInt32.ofNat (k + 1) := by
  rw [UInt32.ofNat_add, UInt32.add_assoc, UInt32.add_comm 1]
  rfl

/-- The inner loop of GETBULK is such a loop. -/
theorem snmpBulkgetRow_eq (ag : Agent σ) (done vbs : List VarBind) (st : BulkState) :
    snmpBulkgetRow ag done vbs st =
      (fun row : SnmpDatagram × List OidSearchRes =>
        { vbs := done ++ renamed vbs (row.2.map (·.oid))
          vbInCnt := st.vbInCnt + UInt32.ofNat vbs.length
          sdg := row.1
          ret := row.2.getLastD st.ret : BulkState }) <$>
        resultsLoop (readStep (mibGetnext ag)) vbs st.vbInCnt st.sdg st.ret := by
  induction vbs generalizing done st with
  | nil => simp [snmpBulkgetRow, resultsLoop, map_eq_bind, renamed]
  | cons vb vbs ih =>
    simp only [snmpBulkgetRow, resultsLoop, readStep, ih, map_eq_bind, bind_assoc, pure_bind,
      add_one_add_ofNat, length_cons, append_assoc, renamed, map_cons,
      zipWith_cons_cons, singleton_append, getLastD_cons]

theorem snmpBulkgetLoop_eq (ag : Agent σ) (repeats : ℕ) (st : BulkState) :
    snmpBulkgetLoop ag repeats st = Prod.fst <$> bulkResults ag repeats st := by
  induction repeats generalizing st with
  | zero => rfl
  | succ repeats ih =>
    simp only [snmpBulkgetLoop, bulkResults, snmpBulkgetRow_eq, ih, map_eq_bind, bind_assoc,
      pure_bind, nil_append, BulkState.after]

/-- The state in which GETBULK starts. -/
def bulkStart (sdg : SnmpDatagram) : BulkState where
  vbs := sdg.vbInList
  sdg := { sdg with pduHdr := { sdg.pduHdr with errIdx := 0 } }
  ret := { request := .getnext }

/-- The number of rows of GETBULK. -/
def bulkRows (sdg : SnmpDatagram) : ℕ := sdg.pduHdr.errIdx.toUInt32.toNat

/-- A request with the search results of its varbinds in the order of the response. -/
def requestResults (ag : Agent σ) (sdg : SnmpDatagram) :
    AgentM σ (Option (SnmpDatagram × List OidSearchRes)) :=
  let pduType := sdg.pduHdr.pduType
  let sdg := markResponse sdg
  if pduType = snmpReqGet then
    some <$> resultsLoop (readStep (mibGet ag)) sdg.vbInList 0 sdg { request := .get }
  else if pduType = snmpReqGetnext then
    some <$> resultsLoop (readStep (mibGetnext ag)) sdg.vbInList 0 sdg { request := .getnext }
  else if pduType = snmpReqSet then
    some <$> resultsLoop (snmpSetStep ag) sdg.vbInList 0 sdg { request := .set }
  else if pduType = snmpReqBulkget then
    (fun res => some ({ res.1.sdg with vbInList := res.1.vbs }, res.2.flatten)) <$>
      bulkResults ag (bulkRows sdg) (bulkStart sdg)
  else pure none

theorem snmpBulkget_eq (ag : Agent σ) (sdg : SnmpDatagram) :
    snmpBulkget ag sdg = (fun res => { res.1.sdg with vbInList := res.1.vbs }) <$>
      bulkResults ag (bulkRows sdg) (bulkStart sdg) := by
  simp only [snmpBulkget, snmpBulkgetLoop_eq, map_eq_bind, bind_assoc, pure_bind, bulkRows,
    bulkStart]

/-- **The dispatcher**, with the search results. -/
theorem snmpRequestDispatch_eq (ag : Agent σ) (sdg : SnmpDatagram) :
    snmpRequestDispatch ag sdg = Option.map Prod.fst <$> requestResults ag sdg := by
  simp only [snmpRequestDispatch, requestResults]
  split
  · simp only [snmpGet, readLoop_eq, map_eq_bind, bind_assoc, pure_bind, Option.map_some]
  · split
    · simp only [snmpGetnext, readLoop_eq, map_eq_bind, bind_assoc, pure_bind, Option.map_some]
    · split
      · simp only [snmpSet, snmpSetLoop_eq, map_eq_bind, bind_assoc, pure_bind, Option.map_some]
      · split
        · simp only [snmpBulkget_eq, map_eq_bind, bind_assoc, pure_bind, Option.map_some]
        · rfl

/-- An answered request has search results. -/
theorem exists_requestResults (h : snmpRequestDispatch ag sdg w = (some (some resp), w')) :
    ∃ results, requestResults ag sdg w = (some (some (resp, results)), w') := by
  rw [snmpRequestDispatch_eq, map_eq_bind] at h
  obtain ⟨res, w₁, hres, hpure⟩ := bind_eq_some_iff.mp h
  obtain ⟨hmap, rfl⟩ := pure_eq_some_iff.mp hpure
  obtain ⟨⟨resp', results⟩, rfl, rfl⟩ := Option.map_eq_some_iff.mp hmap
  exact ⟨results, hres⟩

/-- The results come with the response of the dispatcher. -/
theorem snmpRequestDispatch_of_results {results : List OidSearchRes}
    (h : requestResults ag sdg w = (some (some (resp, results)), w')) :
    snmpRequestDispatch ag sdg w = (some (some resp), w') := by
  rw [snmpRequestDispatch_eq, map_eq_bind, bind_eq_of_some h]
  rfl

/-! ### What the results give -/

/-- The varbind that a search result of a read is answered with. -/
def OidSearchRes.varBind (r : OidSearchRes) : VarBind where
  oid := r.oid
  vbLen := tlvLen (UInt32.ofNat ((berOidEncTry r.oid).getD 0)) +
    tlvLen (UInt32.ofNat (berValueEnc r.var.value r.var.len.toNat r.var.tag).length)
  valueType := r.var.tag
  value := berValueEnc r.var.value r.var.len.toNat r.var.tag
  room := (berValueEncTry r.var.value r.var.len.toNat r.var.tag).getD 0

/-- What an answer changes in the datagram. -/
theorem answer_eq_some {sdg' : SnmpDatagram} {type : UInt8} {value : List UInt8} {room : ℕ}
    (h : answer sdg vbInCnt type value room ret w = (some sdg', w')) :
    sdg'.sender = sdg.sender ∧ sdg'.pduHdr = reportError ret.errStat vbInCnt sdg.pduHdr ∧
      sdg'.vbOutList = sdg.vbOutList ++ [{
        oid := ret.oid
        vbLen := tlvLen (UInt32.ofNat ((berOidEncTry ret.oid).getD 0)) +
          tlvLen (UInt32.ofNat value.length)
        valueType := type
        value := value
        room := room }] := by
  cases hlen : berOidEncTry ret.oid with
  | none =>
    simp only [answer, addVarBind, hlen] at h
    cases h
  | some oidLen =>
    simp only [answer, addVarBind, hlen, Option.map_some] at h
    obtain ⟨_, _, -, hpure⟩ := bind_eq_some_iff.mp h
    obtain ⟨rfl, -⟩ := pure_eq_some_iff.mp hpure
    exact ⟨rfl, rfl, rfl⟩

theorem answerRead_eq_some {sdg' : SnmpDatagram}
    (h : answerRead sdg vbInCnt ret w = (some sdg', w')) :
    sdg'.sender = sdg.sender ∧ sdg'.pduHdr = reportError ret.errStat vbInCnt sdg.pduHdr ∧
      sdg'.vbOutList = sdg.vbOutList ++ [ret.varBind] := by
  cases hlen : berValueEncTry ret.var.value ret.var.len.toNat ret.var.tag with
  | none =>
    simp only [answerRead, hlen] at h
    cases h
  | some valLen =>
    simp only [answerRead, hlen] at h
    rw [OidSearchRes.varBind, hlen]
    exact answer_eq_some h

/-- A search result of a SET as it is reported: an invalid tag becomes an error status. -/
def OidSearchRes.settled (r : OidSearchRes) : OidSearchRes :=
  if r.errStat = 0 ∧ asn1TagValid r.var.tag = false then
    { r with errStat := snmpErrStatNotWritable }
  else r

@[simp] theorem OidSearchRes.settled_request (r : OidSearchRes) :
    r.settled.request = r.request := by
  rw [settled]
  split <;> rfl

@[simp] theorem OidSearchRes.settled_oid (r : OidSearchRes) : r.settled.oid = r.oid := by
  rw [settled]
  split <;> rfl

theorem OidSearchRes.settled_errStat (r : OidSearchRes) : r.settled.errStat =
    if r.errStat = 0 ∧ asn1TagValid r.var.tag = false then snmpErrStatNotWritable
    else r.errStat := by
  rw [settled]
  split <;> rfl

/-- A SET is answered when the sizes of its value and of its OID can be computed, and the answer
leaves the MIB alone. -/
theorem answerSet_isSome_iff (sdg : SnmpDatagram) (vb : VarBind) (vbInCnt : UInt32)
    (ret : OidSearchRes) (w : World Event σ) :
    ((answerSet sdg vb vbInCnt ret w).1.isSome ↔
      (berValueEncTry ret.var.value ret.var.len.toNat ret.var.tag).isSome ∧
        (berOidEncTry ret.oid).isSome) ∧
      (answerSet sdg vb vbInCnt ret w).2.state = w.state := by
  cases hlen : berValueEncTry ret.var.value ret.var.len.toNat ret.var.tag with
  | none =>
    rw [answerSet, hlen]
    exact ⟨by simp [Traced.abort], rfl⟩
  | some valLen =>
    have hset : answerSet sdg vb vbInCnt ret = (fun sdg' => (sdg', ret.settled)) <$>
        (answer sdg vbInCnt vb.valueType (berValueEnc ret.var.value valLen ret.var.tag)
          valLen ret.settled : AgentM σ SnmpDatagram) := by
      rw [answerSet, hlen]
      rfl
    rw [hset, answer, addVarBind, OidSearchRes.settled_oid]
    cases berOidEncTry ret.oid with
    | none => exact ⟨by simp [map_eq_bind, Traced.bind_apply, Traced.abort], rfl⟩
    | some oidLen => exact ⟨iff_of_true rfl ⟨rfl, rfl⟩, rfl⟩

theorem answerSet_eq_some {vb : VarBind} {res : SnmpDatagram × OidSearchRes}
    (h : answerSet sdg vb vbInCnt ret w = (some res, w')) :
    ∃ valLen, berValueEncTry ret.var.value ret.var.len.toNat ret.var.tag = some valLen ∧
      res.2 = ret.settled ∧ res.1.sender = sdg.sender ∧
      res.1.pduHdr = reportError res.2.errStat vbInCnt sdg.pduHdr ∧
      ∃ out : VarBind, res.1.vbOutList = sdg.vbOutList ++ [out] ∧ out.valueType = vb.valueType ∧
        out.value = berValueEnc ret.var.value valLen ret.var.tag ∧ out.room = valLen := by
  cases hlen : berValueEncTry ret.var.value ret.var.len.toNat ret.var.tag with
  | none =>
    simp only [answerSet, hlen] at h
    cases h
  | some valLen =>
    simp only [answerSet, hlen] at h
    obtain ⟨sdg', w₁, hanswer, hpure⟩ := bind_eq_some_iff.mp h
    obtain ⟨rfl, -⟩ := pure_eq_some_iff.mp hpure
    obtain ⟨hsender, hhdr, hout⟩ := answer_eq_some hanswer
    exact ⟨valLen, rfl, rfl, hsender, hhdr, _, hout, rfl, rfl, rfl⟩

theorem readStep_eq_some {find : SnmpDatagram → Oid → OidSearchRes → AgentM σ OidSearchRes}
    {vb : VarBind} {res : SnmpDatagram × OidSearchRes}
    (h : readStep find vb vbInCnt sdg ret w = (some res, w')) :
    res.1.sender = sdg.sender ∧ res.1.pduHdr = reportError res.2.errStat vbInCnt sdg.pduHdr ∧
      res.1.vbOutList = sdg.vbOutList ++ [res.2.varBind] := by
  obtain ⟨_, w₁, -, h₁⟩ := bind_eq_some_iff.mp h
  obtain ⟨ret', w₂, -, h₂⟩ := bind_eq_some_iff.mp h₁
  obtain ⟨sdg', w₃, hanswer, h₃⟩ := bind_eq_some_iff.mp h₂
  obtain ⟨rfl, -⟩ := pure_eq_some_iff.mp h₃
  exact answerRead_eq_some hanswer

/-- The header of the response behind the search results of some varbinds. -/
def reportErrors : UInt32 → List Int32 → PduHdr → PduHdr
  | _, [], hdr => hdr
  | vbInCnt, e :: es, hdr => reportErrors (vbInCnt + 1) es (reportError e (vbInCnt + 1) hdr)

theorem reportErrors_append (vbInCnt : UInt32) (l r : List Int32) (hdr : PduHdr) :
    reportErrors vbInCnt (l ++ r) hdr =
      reportErrors (vbInCnt + UInt32.ofNat l.length) r (reportErrors vbInCnt l hdr) := by
  induction l generalizing vbInCnt hdr with
  | nil => simp [reportErrors]
  | cons e l ih =>
    rw [cons_append, reportErrors, reportErrors, ih, add_one_add_ofNat, length_cons]

/-- The steps of a loop report the errors of their results. -/
def Reports (step : VarBind → UInt32 → SnmpDatagram → OidSearchRes →
    AgentM σ (SnmpDatagram × OidSearchRes)) : Prop :=
  ∀ vb vbInCnt sdg ret, Ensures (step vb vbInCnt sdg ret) fun res =>
    res.1.pduHdr = reportError res.2.errStat vbInCnt sdg.pduHdr

theorem readStep_reports (find : SnmpDatagram → Oid → OidSearchRes → AgentM σ OidSearchRes) :
    Reports (readStep find) :=
  fun _ _ _ _ _ _ _ h => (readStep_eq_some h).2.1

theorem snmpSetStep_reports (ag : Agent σ) : Reports (snmpSetStep ag) := by
  intro vb vbInCnt sdg ret w res w' h
  obtain ⟨_, w₁, -, h₁⟩ := bind_eq_some_iff.mp h
  obtain ⟨ret', w₂, -, hanswer⟩ := bind_eq_some_iff.mp h₁
  obtain ⟨valLen, -, -, -, hhdr, -⟩ := answerSet_eq_some hanswer
  exact hhdr

section Loop

variable {step : VarBind → UInt32 → SnmpDatagram → OidSearchRes →
    AgentM σ (SnmpDatagram × OidSearchRes)}

/-- There is a result for every varbind. -/
theorem resultsLoop_length (vbs : List VarBind) (vbInCnt : UInt32) (sdg : SnmpDatagram)
    (ret : OidSearchRes) :
    Ensures (resultsLoop step vbs vbInCnt sdg ret) fun res => res.2.length = vbs.length := by
  induction vbs generalizing vbInCnt sdg ret with
  | nil => exact .pure rfl
  | cons vb vbs ih =>
    refine .bind _ fun res => (ih _ _ _).bind_of fun rest hrest => .pure ?_
    rw [length_cons, length_cons, hrest]

theorem resultsLoop_hdr (hstep : Reports step) (vbs : List VarBind) (vbInCnt : UInt32)
    (sdg : SnmpDatagram) (ret : OidSearchRes) :
    Ensures (resultsLoop step vbs vbInCnt sdg ret) fun res =>
      res.1.pduHdr = reportErrors vbInCnt (res.2.map (·.errStat)) sdg.pduHdr := by
  induction vbs generalizing vbInCnt sdg ret with
  | nil => exact .pure rfl
  | cons vb vbs ih =>
    refine (hstep vb _ sdg ret).bind_of fun res hres =>
      (ih _ _ _).bind_of fun rest hrest => .pure ?_
    rw [hrest, hres]
    rfl

/-- **The varbinds of a response** to a read are those of its search results. -/
theorem readResults_out (find : SnmpDatagram → Oid → OidSearchRes → AgentM σ OidSearchRes)
    (vbs : List VarBind) (vbInCnt : UInt32) (sdg : SnmpDatagram) (ret : OidSearchRes) :
    Ensures (resultsLoop (readStep find) vbs vbInCnt sdg ret) fun res =>
      res.1.sender = sdg.sender ∧
        res.1.vbOutList = sdg.vbOutList ++ res.2.map OidSearchRes.varBind := by
  induction vbs generalizing vbInCnt sdg ret with
  | nil => exact .pure ⟨rfl, by simp⟩
  | cons vb vbs ih =>
    have hstep : Ensures (readStep find vb (vbInCnt + 1) sdg ret) fun res =>
        res.1.sender = sdg.sender ∧ res.1.vbOutList = sdg.vbOutList ++ [res.2.varBind] :=
      fun _ _ _ h => ⟨(readStep_eq_some h).1, (readStep_eq_some h).2.2⟩
    refine hstep.bind_of fun res hres => (ih _ _ _).bind_of fun rest hrest => .pure ⟨?_, ?_⟩
    · exact hrest.1.trans hres.1
    · rw [hrest.2, hres.2]
      simp

end Loop

theorem length_renamed {vbs : List VarBind} {names : List Oid} (h : names.length = vbs.length) :
    (renamed vbs names).length = vbs.length := by
  simp [renamed, h]

/-- A row of GETBULK leaves a varbind for every varbind. -/
theorem BulkState.length_after {st : BulkState} {row : SnmpDatagram × List OidSearchRes}
    (h : row.2.length = st.vbs.length) : (st.after row).vbs.length = st.vbs.length :=
  length_renamed (by simpa using h)

theorem bulkResults_hdr (ag : Agent σ) (repeats : ℕ) (st : BulkState) :
    Ensures (bulkResults ag repeats st) fun res =>
      res.1.sdg.pduHdr =
        reportErrors st.vbInCnt (res.2.flatten.map (·.errStat)) st.sdg.pduHdr := by
  induction repeats generalizing st with
  | zero => exact .pure rfl
  | succ repeats ih =>
    have hrow : Ensures (resultsLoop (readStep (mibGetnext ag)) st.vbs st.vbInCnt st.sdg st.ret)
        fun res => res.2.length = st.vbs.length ∧
          res.1.pduHdr = reportErrors st.vbInCnt (res.2.map (·.errStat)) st.sdg.pduHdr :=
      fun w res w' h => ⟨resultsLoop_length _ _ _ _ w res w' h,
        resultsLoop_hdr (readStep_reports _) _ _ _ _ w res w' h⟩
    refine hrow.bind_of fun row hres => (ih _).bind_of fun rest hrest => .pure ?_
    rw [hrest, flatten_cons, map_append, reportErrors_append, ← hres.2,
      length_map, hres.1]
    rfl

/-- **The varbinds of a response** to GETBULK are those of its rows. -/
theorem bulkResults_out (ag : Agent σ) (repeats : ℕ) (st : BulkState) :
    Ensures (bulkResults ag repeats st) fun res =>
      res.1.sdg.vbOutList = st.sdg.vbOutList ++ res.2.flatten.map OidSearchRes.varBind ∧
        res.2.length = repeats ∧ ∀ row ∈ res.2, row.length = st.vbs.length := by
  induction repeats generalizing st with
  | zero => exact .pure ⟨by simp, rfl, by simp⟩
  | succ repeats ih =>
    have hrow : Ensures (resultsLoop (readStep (mibGetnext ag)) st.vbs st.vbInCnt st.sdg st.ret)
        fun res => res.2.length = st.vbs.length ∧
          res.1.vbOutList = st.sdg.vbOutList ++ res.2.map OidSearchRes.varBind :=
      fun w res w' h => ⟨resultsLoop_length _ _ _ _ w res w' h,
        (readResults_out _ _ _ _ _ w res w' h).2⟩
    refine hrow.bind_of fun row hres => (ih _).bind_of fun rest hrest => .pure ⟨?_, ?_, ?_⟩
    · obtain ⟨hout, -⟩ := hrest
      have hafter : (st.after row).sdg = row.1 := rfl
      rw [hout, hafter, hres.2]
      simp
    · simp [hrest.2.1]
    · refine forall_mem_cons.mpr ⟨hres.1, fun r hr => ?_⟩
      rw [hrest.2.2 r hr, BulkState.length_after hres.1]

/-- The header with which a request is processed. -/
def startHdr (sdg : SnmpDatagram) : PduHdr :=
  if sdg.pduHdr.pduType = snmpReqBulkget then { (markResponse sdg).pduHdr with errIdx := 0 }
  else (markResponse sdg).pduHdr

/-- **The header of a response** reports the errors of the search results. -/
theorem requestResults_hdr {results : List OidSearchRes}
    (h : requestResults ag sdg w = (some (some (resp, results)), w')) :
    resp.pduHdr = reportErrors 0 (results.map (·.errStat)) (startHdr sdg) := by
  have hloop : ∀ {x : AgentM σ (SnmpDatagram × List OidSearchRes)},
      (Ensures x fun res =>
        res.1.pduHdr = reportErrors 0 (res.2.map (·.errStat)) (markResponse sdg).pduHdr) →
      sdg.pduHdr.pduType ≠ snmpReqBulkget →
      (some <$> x) w = (some (some (resp, results)), w') →
      resp.pduHdr = reportErrors 0 (results.map (·.errStat)) (startHdr sdg) := by
    intro x hx htype hrun
    obtain ⟨res, w₁, hxw, hpure⟩ := bind_eq_some_iff.mp hrun
    obtain ⟨hsome, -⟩ := pure_eq_some_iff.mp hpure
    obtain rfl := Option.some.inj hsome
    rw [startHdr, if_neg htype]
    exact hx w _ w₁ hxw
  rw [requestResults] at h
  split at h
  · next htype =>
      exact hloop (resultsLoop_hdr (readStep_reports _) _ _ _ _) (by rw [htype]; decide) h
  split at h
  · next htype =>
      exact hloop (resultsLoop_hdr (readStep_reports _) _ _ _ _) (by rw [htype]; decide) h
  split at h
  · next htype =>
      exact hloop (resultsLoop_hdr (snmpSetStep_reports ag) _ _ _ _) (by rw [htype]; decide) h
  split at h
  · next htype =>
      obtain ⟨res, w₁, hxw, hpure⟩ := bind_eq_some_iff.mp h
      obtain ⟨hsome, -⟩ := pure_eq_some_iff.mp hpure
      obtain ⟨rfl, rfl⟩ := Prod.mk.inj (Option.some.inj hsome)
      rw [startHdr, if_pos htype]
      exact bulkResults_hdr ag _ _ w _ w₁ hxw
  · cases h

end SmithSnmp
