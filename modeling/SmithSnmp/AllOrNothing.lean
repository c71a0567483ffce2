import SmithSnmp.AuthError
import SmithSnmp.FurtherViews
import SmithSnmp.LuaGroup

/-!
# SET Requests as a Whole

`snmp_set` works through its varbinds one after the other. What was set for one of them stays set
when a later one fails. The handler of a Lua group moreover checks the value after `set_f` was
called, and the error status that a request brings along is the one of its response.

The functions `set_f` are taken to be atomic: one that raises or returns an error has changed
nothing. Then the variables are as before, whatever the functions do, exactly when no varbind comes
to a `set_f` whose effect is answered, some varbind is never answered at all, or there is a single
varbind with a tag that passes the check, in a request without an error status.

## Main results

* `mibSet_settles`: SET of one varbind.
* `luaAgent_round`: a round of `snmp_set` over Lua groups.
* `allOrNothing_iff`: when a SET request is all or nothing.
-/

namespace SmithSnmp

open List Lib MibNode Traced
open Option hiding any_eq_true or_assoc

variable {σ : Type}

variable {oid : Oid} {views r : List Oid} {out : UInt8 × Int32} {ret : OidSearchRes}
  {sdg sdg' : SnmpDatagram} {vb : VarBind} {tag : UInt8} {w w' : World Event σ} {vbs : List VarBind}

/-! ### SET of one varbind -/

/-- The views before and behind the first one that covers the OID. -/
def splitCover (oid : Oid) : List Oid → Option (List Oid × List Oid)
  | [] => none
  | v :: views =>
    if 0 < oidCover v oid then some ([], views)
    else (splitCover oid views).map fun s => (v :: s.1, s.2)

theorem splitCover_eq_none (h : splitCover oid views = none) : viewCover views oid = false := by
  induction views with
  | nil => rfl
  | cons v views ih =>
    by_cases hv : 0 < oidCover v oid
    · simp [splitCover, hv] at h
    · simp only [splitCover, hv, if_false, map_eq_none_iff] at h
      rw [viewCover, any_cons, ← viewCover, ih h]
      simp [hv]

theorem splitCover_eq_some {l : List Oid} (h : splitCover oid views = some (l, r)) :
    ∃ v, views = l ++ v :: r ∧ v <+: oid ∧ ∀ u ∈ l, ¬ u <+: oid := by
  induction views generalizing l with
  | nil => cases h
  | cons v views ih =>
    by_cases hv : 0 < oidCover v oid
    · simp only [splitCover, hv, if_true, some.injEq, Prod.mk.injEq] at h
      obtain ⟨rfl, rfl⟩ := h
      exact ⟨v, rfl, (oidCover_pos_iff v oid).mp hv, by simp⟩
    · simp only [splitCover, hv, if_false, map_eq_some_iff, Prod.mk.injEq] at h
      obtain ⟨⟨l', r'⟩, hsplit, rfl, rfl⟩ := h
      obtain ⟨u, rfl, hu, hl⟩ := ih hsplit
      refine ⟨u, rfl, hu, forall_mem_cons.mpr ⟨?_, hl⟩⟩
      rwa [← oidCover_pos_iff]

/-- The state behind a search that is not stopped by the view. -/
def exactState (ag : Agent σ) (oid : Oid) (arg : LuaVal × UInt8) (st : σ) : σ :=
  match mibTreeWalk oid ag.root with
  | (.inst callback, x :: rest) => (ag.handlers.call callback .set (x :: rest) (some arg) st).2
  | _ => st

/-- The tag and the error status in the end, out of those in the view that covers the OID. -/
def standing (r : List Oid) (out : UInt8 × Int32) : UInt8 × Int32 :=
  if r = [] ∨ isFound out = true then out else (asn1TagNoSuchObj, 0)

/-- What SET makes of a varbind: the tag, the error status, and the state of the MIB. -/
def setOutcome (ag : Agent σ) (views : List Oid) (oid : Oid) (var : Variable) (st : σ) :
    (UInt8 × Int32) × σ :=
  match splitCover oid views with
  | none => ((var.tag, snmpErrStatNoAccess), st)
  | some (l, r) =>
    if l.any (fun u => oidCmp oid u < 0) then ((asn1TagNoSuchObj, 0), st)
    else (standing r (exactOutcome ag oid .set (setArg l var) st),
      exactState ag oid (setArg l var) st)

/-- A search result of SET for an OID, with the tag and the error status `out`. -/
structure Settled (oid : Oid) (var : Variable) (out : UInt8 × Int32) (res : OidSearchRes) :
    Prop where
  oid : res.oid = oid
  request : res.request = .set
  tag : res.var.tag = out.1
  errStat : res.errStat = out.2
  len : res.var.len = var.len

theorem Settled.missed {var : Variable} {res : OidSearchRes} (h : Settled oid var out res) :
    Settled oid var (asn1TagNoSuchObj, 0) (missed oid res) :=
  ⟨rfl, h.request, rfl, rfl, h.len⟩

theorem takeReply_set (hreq : ret.request = .set) (path : Oid) (reply : Reply) :
    takeReply path ret reply = some { ret with
      errStat := (replyOutcome reply).2
      var := { ret.var with tag := (replyOutcome reply).1 } } := by
  cases reply with
  | fail => rfl
  | ret errStat subOid val tag =>
    rw [takeReply]
    by_cases hfound : errStat = 0 ∧ asn1TagValid tag = true
    · rw [if_pos hfound, if_pos hreq]
      rfl
    · rw [if_neg hfound]
      rfl

theorem searchExact_settles (ag : Agent σ) {view : Oid} (hcov : view <+: oid)
    (hreq : ret.request = .set) (w : World Event σ) :
    ∃ res w', searchExact ag oid view ret w = (some res, w') ∧
      Settled oid ret.var (exactOutcome ag oid .set (luaPush ret.var) w.state) res ∧
      w'.state = exactState ag oid (luaPush ret.var) w.state := by
  have hpos : ¬ oidCover view oid ≤ 0 := not_le.mpr ((oidCover_pos_iff view oid).mpr hcov)
  rw [exactOutcome, exactState]
  simp only [searchExact, mibTreeSearch, hpos, if_false]
  rcases hwalk : mibTreeWalk oid ag.root with ⟨⟨subs⟩ | callback, _ | ⟨x, rest⟩⟩
  · exact ⟨_, w, rfl, ⟨rfl, hreq, rfl, rfl, rfl⟩, rfl⟩
  · exact ⟨_, w, rfl, ⟨rfl, hreq, rfl, rfl, rfl⟩, rfl⟩
  · exact ⟨_, w, rfl, ⟨rfl, hreq, rfl, rfl, rfl⟩, rfl⟩
  · dsimp only
    set ret₁ : OidSearchRes :=
      { ret with oid := oid, errStat := 0, instId := x :: rest, callback := callback }
    have hreq₁ : ret₁.request = .set := hreq
    have hsearch := mibInstanceSearch_apply ag.handlers
      (oid.take (oid.length - (x :: rest).length)) ret₁ w
    rw [takeReply_set hreq₁] at hsearch
    rw [Traced.bind_assoc, Traced.bind_eq_of_some hsearch]
    simp only [hreq₁, if_true]
    exact ⟨_, _, rfl, ⟨rfl, rfl, rfl, rfl, rfl⟩, rfl⟩

/-- The loop over the views when one of them covers the OID. -/
theorem overViews_settles (ag : Agent σ) {l : List Oid} {view : Oid} (hl : ∀ u ∈ l, ¬ u <+: oid)
    (hr : ∀ u ∈ r, ¬ u <+: oid) (hcov : view <+: oid) (hreq : ret.request = .set)
    (w : World Event σ) (hahead : ¬ l.any (fun u => oidCmp oid u < 0) = true) :
    ∃ res w', overViews (searchExact ag oid) (foundExact oid) oid (l ++ view :: r) ret w =
        (some res, w') ∧
      Settled oid ret.var (standing r (exactOutcome ag oid .set (setArg l ret.var) w.state)) res ∧
      w'.state = exactState ag oid (setArg l ret.var) w.state := by
  rw [overViews_missed ag hl, if_neg hahead, overViews_covered ag hr]
  set ret₁ := if l = [] then ret else missed oid ret with hret₁
  have hreq₁ : ret₁.request = .set := by
    rw [hret₁]
    split <;> exact hreq
  have hlen₁ : ret₁.var.len = ret.var.len := by
    rw [hret₁]
    split <;> rfl
  have hpush : luaPush ret₁.var = setArg l ret.var := by
    rw [hret₁, setArg]
    split <;> rfl
  obtain ⟨res, w', hsearch, hset, hstate⟩ := searchExact_settles ag hcov hreq₁ w
  rw [hpush] at hset hstate
  have hfound' : foundExact oid view res =
      isFound (exactOutcome ag oid .set (setArg l ret.var) w.state) := by
    rw [foundExact_covered hcov, hset.tag, hset.errStat]
  rw [bind_eq_of_some hsearch, hfound']
  refine ⟨_, w', rfl, ?_, hstate⟩
  rw [standing]
  have hset' : Settled oid ret.var (exactOutcome ag oid .set (setArg l ret.var) w.state) res :=
    ⟨hset.oid, hset.request, hset.tag, hset.errStat, hset.len.trans hlen₁⟩
  by_cases hfound : isFound (exactOutcome ag oid .set (setArg l ret.var) w.state) = true
  · rw [if_pos hfound, if_pos (.inr hfound)]
    exact hset'
  · rw [if_neg hfound]
    by_cases hnil : r = []
    · rw [if_pos hnil, if_pos (.inl hnil)]
      exact ⟨rfl, hset'.request, hset'.tag, hset'.errStat, hset'.len⟩
    · rw [if_neg hnil, if_neg (not_or.mpr ⟨hnil, hfound⟩)]
      exact hset'.missed

/-- **SET of one varbind.** It comes to an end, with the outcome that the views, the tree and the
handlers give. -/
theorem mibSet_settles {ag : Agent σ} (hanti : Antichain (viewsOf ag sdg .write)) (oid : Oid)
    (hreq : ret.request = .set) (w : World Event σ) :
    ∃ res w', mibSet ag sdg oid ret w = (some res, w') ∧
      Settled oid ret.var (setOutcome ag (viewsOf ag sdg .write) oid ret.var w.state).1 res ∧
      w'.state = (setOutcome ag (viewsOf ag sdg .write) oid ret.var w.state).2 := by
  have hrefused : writeAccess ag sdg oid ret = ([], { ret with errStat := snmpErrStatNoAccess }) →
      mibSet ag sdg oid ret w =
        (some { ret with errStat := snmpErrStatNoAccess, oid := oid }, w) := by
    intro haccess
    rw [mibSet, haccess]
    rfl
  cases hsplit : splitCover oid (viewsOf ag sdg .write) with
  | none =>
    have hno := splitCover_eq_none hsplit
    refine ⟨_, w, hrefused ?_, ?_, ?_⟩
    · rw [writeAccess]
      rw [viewsOf] at hno
      cases hp : principalViews ag.views sdg .write with
      | none => rfl
      | some views =>
        rw [hp, getD_some] at hno
        simp [hno]
    · rw [setOutcome, hsplit]
      exact ⟨rfl, hreq, rfl, rfl, rfl⟩
    · rw [setOutcome, hsplit]
  | some s =>
    obtain ⟨l, r⟩ := s
    obtain ⟨view, hviews, hcov, hl⟩ := splitCover_eq_some hsplit
    have hr : ∀ u ∈ r, ¬ u <+: oid := by
      intro u hu
      rw [hviews] at hanti
      exact (hanti.others.2 u hu).not_cover hcov
    have hp : principalViews ag.views sdg .write = some (l ++ view :: r) := by
      rw [viewsOf] at hviews
      cases hp : principalViews ag.views sdg .write with
      | none =>
        rw [hp] at hviews
        simp at hviews
      | some views =>
        rw [hp] at hviews
        rw [← hviews]
        rfl
    have hcover : viewCover (l ++ view :: r) oid = true := by
      rw [viewCover, any_eq_true]
      exact ⟨view, by simp, by simpa using (oidCover_pos_iff view oid).mpr hcov⟩
    have hreq' : (authenStep sdg ret).request = .set := by simpa using hreq
    rw [mibSet_eq_of_views (hviews ▸ hanti.nodup) hp hcover, setOutcome, hsplit]
    dsimp only
    -- an OID ahead of an earlier view is not looked for in the covering one
    by_cases hahead : l.any (fun u => oidCmp oid u < 0) = true
    · rw [overViews_missed ag hl, if_pos hahead, if_pos hahead]
      exact ⟨_, w, rfl, ⟨rfl, hreq', rfl, rfl, by simp [missed]⟩, rfl⟩
    · rw [if_neg hahead]
      simpa using overViews_settles ag hl hr hcov hreq' w hahead

/-! ### The answer -/

/-- The error that is reported for a tag and an error status. -/
def setError (out : UInt8 × Int32) : Int32 :=
  if out.2 = 0 ∧ asn1TagValid out.1 = false then snmpErrStatNotWritable else out.2

/-- A varbind is not answered: its value is never decoded, or the encoder runs for ever on its OID or
on an OID as its value. -/
def Unanswered (vb : VarBind) (tag : UInt8) : Prop :=
  vb.Stuck ∨ 255 < vb.oid.length ∨ (tag = asn1TagObjid ∧ 255 < valueLen vb)

instance instDecidableUnanswered (vb : VarBind) (tag : UInt8) : Decidable (Unanswered vb tag) :=
  inferInstanceAs (Decidable (_ ∨ _))

/-- What a round of `snmp_set` for a varbind leaves behind, for the outcome `out` and the state
`st`. -/
structure SetRound (sdg : SnmpDatagram) (vb : VarBind) (vbInCnt : UInt32) (out : UInt8 × Int32)
    (st : σ) (result : Option (SnmpDatagram × OidSearchRes) × World Event σ) : Prop where
  state : result.2.state = st
  unanswered : Unanswered vb out.1 → result.1 = none
  answered : ¬ Unanswered vb out.1 → ∃ sdg' ret', result.1 = some (sdg', ret') ∧
    ret'.request = .set ∧ sdg'.sender = sdg.sender ∧
    sdg'.pduHdr = reportError (setError out) vbInCnt sdg.pduHdr

theorem answerSet_round (sdg : SnmpDatagram) (vbInCnt : UInt32) {var : Variable}
    {res : OidSearchRes} (h : Settled vb.oid var out res) (hlen : var.len.toNat = valueLen vb)
    (hvb : ¬ vb.Stuck) (w : World Event σ) :
    SetRound sdg vb vbInCnt out w.state (answerSet sdg vb vbInCnt res w) := by
  obtain ⟨hsome, hstate⟩ := answerSet_isSome_iff sdg vb vbInCnt res w
  have hstop : Unanswered vb out.1 ↔ (answerSet sdg vb vbInCnt res w).1 = none := by
    rw [← not_isSome_iff_eq_none, hsome, not_and_or, not_isSome_iff_eq_none,
      not_isSome_iff_eq_none, berValueEncTry_eq_none_iff, berOidEncTry_eq_none_iff, h.tag,
      h.len, hlen, h.oid, Unanswered, or_iff_right hvb, or_comm]
  refine ⟨hstate, hstop.mp, fun hgo => ?_⟩
  obtain ⟨p, hp⟩ := ne_none_iff_exists'.mp (mt hstop.mpr hgo)
  have hrun : answerSet sdg vb vbInCnt res w = (some p, (answerSet sdg vb vbInCnt res w).2) :=
    Prod.ext hp rfl
  obtain ⟨-, -, hsettled, hsender, hhdr, -⟩ := answerSet_eq_some hrun
  refine ⟨p.1, p.2, hp, ?_, hsender, ?_⟩
  · rw [hsettled, OidSearchRes.settled_request, h.request]
  · rw [hhdr, hsettled, OidSearchRes.settled_errStat, h.tag, h.errStat]
    rfl

/-! ### Lua groups -/

/-- An agent whose instance nodes are Lua groups. -/
def luaAgent (root : MibNode) (vs : ViewState) (groups : Int → LuaGroup σ) : Agent σ where
  handlers := luaHandlers groups
  root := root
  views := vs

/-- Where a varbind gets: to an outcome without any `set_f`, or to the `set_f` of a variable, with
the tag it is called with and the views behind. -/
inductive SetRoute where
  | refused (out : UInt8 × Int32)
  | sets (callback : Int) (target : LuaTarget) (tag : UInt8) (behind : List Oid)

/-- The way of a varbind through the views, the tree and the checks of the group. -/
def setRoute (root : MibNode) (objs : Int → LuaObjects) (views : List Oid) (oid : Oid)
    (valueType : UInt8) : SetRoute :=
  match splitCover oid views with
  | none => .refused (valueType, snmpErrStatNoAccess)
  | some (l, r) =>
    if l.any (fun u => oidCmp oid u < 0) then .refused (asn1TagNoSuchObj, 0)
    else
      let tag := if l = [] then valueType else asn1TagNoSuchObj
      match mibTreeWalk oid root with
      | (.group _, _) => .refused (asn1TagNoSuchObj, 0)
      | (.inst _, []) => .refused (standing r (asn1TagNoSuchInst, 0))
      | (.inst callback, x :: rest) =>
        match mibGroupIndexesGenerate (objs callback) with
        | none => .refused (asn1TagNoSuchObj, 0)
        | some tab =>
          match setTarget (objs callback) tab ((x :: rest).map UInt32.toNat) tag with
          | .error errStat => .refused (standing r (tag, errStat))
          | .ok t =>
            if t.var.hasSet = false then .refused (asn1TagNoSuchObj, 0)
            else .sets callback t tag r

/-- The tags whose values pass `return_value_check` in a SET. An IP address is pushed as a string
and has to be a table. -/
def checkedTag (tag : UInt8) : Bool :=
  tag = asn1TagInt || tag = asn1TagOctstr || tag = asn1TagNul || tag = asn1TagObjid ||
    tag = asn1TagCnt || tag = asn1TagGau || tag = asn1TagTimeticks

/-- A value that is pushed for a variable of `len` elements, by its tag. -/
structure Pushed (len : ℕ) (tag : UInt8) (val : LuaVal) : Prop where
  checked : returnValueCheck val tag = checkedTag tag
  elems : val.elems.length = if tag = asn1TagObjid then len else 0

theorem pushed_nil {len : ℕ} (hint : tag ≠ asn1TagInt) (hoct : tag ≠ asn1TagOctstr)
    (hobjid : tag ≠ asn1TagObjid) (hcnt : tag ≠ asn1TagCnt) (hgau : tag ≠ asn1TagGau)
    (htime : tag ≠ asn1TagTimeticks) : Pushed len tag .nil where
  checked := by
    simp only [returnValueCheck, berTagMatch, checkedTag, LuaVal.type, hint, hoct, hobjid, hcnt,
      hgau, htime, if_false, decide_false, Bool.false_or, Bool.or_false]
    by_cases hnul : tag = asn1TagNul
    · rw [hnul]
      rfl
    · simp only [hnul, if_false, decide_false, decide_eq_false_iff_not]
      split
      · simp
      · split
        · simp
        · split
          · simp
          · split <;> simp
  elems := by simp [LuaVal.elems, hobjid]

theorem pushed_luaPush (var : Variable) : Pushed var.len.toNat var.tag (luaPush var).1 := by
  rw [luaPush]
  dsimp only
  by_cases hint : var.tag = asn1TagInt
  · rw [if_pos hint, hint]
    exact ⟨rfl, rfl⟩
  rw [if_neg hint]
  by_cases hstr : var.tag = asn1TagOctstr ∨ var.tag = asn1TagIpaddr
  · rw [if_pos hstr]
    rcases hstr with hstr | hstr <;> rw [hstr] <;> exact ⟨rfl, rfl⟩
  rw [if_neg hstr]
  obtain ⟨hoct, -⟩ := not_or.mp hstr
  by_cases hobjid : var.tag = asn1TagObjid
  · rw [if_pos hobjid, hobjid]
    exact ⟨rfl, by simp [LuaVal.elems]⟩
  rw [if_neg hobjid]
  by_cases hnum : var.tag = asn1TagCnt ∨ var.tag = asn1TagGau ∨ var.tag = asn1TagTimeticks
  · rw [if_pos hnum]
    rcases hnum with hnum | hnum | hnum <;> rw [hnum] <;> exact ⟨rfl, rfl⟩
  rw [if_neg hnum]
  obtain ⟨hcnt, hnum⟩ := not_or.mp hnum
  obtain ⟨hgau, htime⟩ := not_or.mp hnum
  exact pushed_nil hint hoct hobjid hcnt hgau htime

theorem pushed_setArg (l : List Oid) (var : Variable) :
    Pushed var.len.toNat (setArg l var).2 (setArg l var).1 := by
  rw [setArg]
  split
  · exact pushed_luaPush var
  · exact pushed_nil (by decide) (by decide) (by decide) (by decide) (by decide) (by decide)

/-- What comes of a call of `set_f`. -/
def setResult (val : LuaVal) (tag : UInt8) : Option (Option Int32) → UInt8 × Int32
  | none => (asn1TagNoSuchObj, 0)
  | some errStat =>
    if returnValueCheck val tag then (tag, errStat.getD 0) else (asn1TagNoSuchObj, 0)

@[simp] theorem standing_noSuchObj (r : List Oid) :
    standing r (asn1TagNoSuchObj, 0) = (asn1TagNoSuchObj, 0) := by
  rw [standing]
  split <;> rfl

/-- The outcome and the state that a varbind with a value of `len` elements gets on its way. -/
def RouteOutcome (groups : Int → LuaGroup σ) (len : ℕ) (st : σ) (out : UInt8 × Int32) (st' : σ) :
    SetRoute → Prop
  | .refused out' => out = out' ∧ st' = st
  | .sets callback t tag r => ∃ val, Pushed len tag val ∧
      out = standing r (setResult val tag ((groups callback).setF t.path t.inst val st).1) ∧
      st' = ((groups callback).setF t.path t.inst val st).2

/-- **SET of one varbind over Lua groups**, by the way it takes. -/
theorem setOutcome_luaAgent (root : MibNode) (vs : ViewState) {groups : Int → LuaGroup σ}
    {objs : Int → LuaObjects} (hobjs : ∀ callback, (groups callback).objs = objs callback)
    (views : List Oid) (oid : Oid) (var : Variable) (st : σ) :
    RouteOutcome groups var.len.toNat st
      (setOutcome (luaAgent root vs groups) views oid var st).1
      (setOutcome (luaAgent root vs groups) views oid var st).2
      (setRoute root objs views oid var.tag) := by
  rw [setRoute, setOutcome]
  cases hsplit : splitCover oid views with
  | none => exact ⟨rfl, rfl⟩
  | some s =>
    obtain ⟨l, r⟩ := s
    dsimp only
    by_cases hahead : l.any (fun u => oidCmp oid u < 0) = true
    · rw [if_pos hahead, if_pos hahead]
      exact ⟨rfl, rfl⟩
    · rw [if_neg hahead, if_neg hahead, exactOutcome, exactState]
      have htag : (setArg l var).2 = if l = [] then var.tag else asn1TagNoSuchObj := by
        rw [setArg]
        split <;> rfl
      rw [← htag]
      have hroot : (luaAgent root vs groups).root = root := rfl
      rw [hroot]
      -- a group, an instance node itself, an OID below one
      rcases hwalk : mibTreeWalk oid root with ⟨⟨subs⟩ | callback, _ | ⟨x, rest⟩⟩
      · exact ⟨standing_noSuchObj r, rfl⟩
      · exact ⟨standing_noSuchObj r, rfl⟩
      · exact ⟨rfl, rfl⟩
      · have hcall : (luaAgent root vs groups).handlers.call callback .set (x :: rest)
            (some (setArg l var)) st =
              luaSet (groups callback) ((x :: rest).map UInt32.toNat) (setArg l var).1
                (setArg l var).2 st := rfl
        simp only [hcall, luaSet, hobjs callback]
        cases mibGroupIndexesGenerate (objs callback) with
        | none => exact ⟨standing_noSuchObj r, rfl⟩
        | some tab =>
          dsimp only
          cases setTarget (objs callback) tab ((x :: rest).map UInt32.toNat)
              (setArg l var).2 with
          | error errStat => exact ⟨rfl, rfl⟩
          | ok t =>
            dsimp only
            by_cases hset : t.var.hasSet = false
            · rw [if_pos hset, if_pos hset]
              exact ⟨standing_noSuchObj r, rfl⟩
            · rw [if_neg hset, if_neg hset]
              refine ⟨(setArg l var).1, pushed_setArg l var, ?_⟩
              rcases (groups callback).setF t.path t.inst (setArg l var).1 st with
                ⟨_ | errStat, st'⟩
              · exact ⟨rfl, rfl⟩
              · by_cases hcheck : returnValueCheck (setArg l var).1 (setArg l var).2 = true <;>
                  simp [setResult, hcheck, replyOutcome]

/-! ### Rounds -/

/-- The write views of a principal. -/
def writeViews (vs : ViewState) (sdg : SnmpDatagram) : List Oid :=
  (principalViews vs sdg .write).getD []

/-- The way of a varbind of a request. -/
def routeOf (root : MibNode) (vs : ViewState) (objs : Int → LuaObjects) (sdg : SnmpDatagram)
    (vb : VarBind) : SetRoute :=
  setRoute root objs (writeViews vs sdg) vb.oid vb.valueType

/-- The way of a varbind only depends on the sender of the datagram. -/
theorem writeViews_congr {vs : ViewState} (h : sdg'.sender = sdg.sender) :
    writeViews vs sdg' = writeViews vs sdg := by
  rw [writeViews, writeViews, principalViews_congr vs h]

/-- The loop of `snmp_set` as rounds. -/
theorem snmpSetLoop_cons (ag : Agent σ) (vb : VarBind) (vbs : List VarBind) (vbInCnt : UInt32)
    (sdg : SnmpDatagram) (ret : OidSearchRes) :
    snmpSetLoop ag (vb :: vbs) vbInCnt sdg ret =
      loadValue vb ret >>= fun loaded =>
        (mibSet ag sdg vb.oid loaded >>= answerSet sdg vb (vbInCnt + 1)) >>=
          fun p => snmpSetLoop ag vbs (vbInCnt + 1) p.1 p.2 := by
  simp only [snmpSetLoop, Traced.bind_assoc]

/-- What follows a round: nothing, or what comes after it from the state that it left. -/
theorem SetRound.bind {vbInCnt : UInt32} {st : σ} {x : AgentM σ (SnmpDatagram × OidSearchRes)}
    (h : SetRound sdg vb vbInCnt out st (x w))
    (f : SnmpDatagram × OidSearchRes → AgentM σ SnmpDatagram) :
    (Unanswered vb out.1 ∧ ((x >>= f) w).1 = none) ∨
      (¬ Unanswered vb out.1 ∧ ∃ sdg' ret' w', (x >>= f) w = f (sdg', ret') w' ∧ w'.state = st ∧
        ret'.request = .set ∧ sdg'.sender = sdg.sender ∧
        sdg'.pduHdr = reportError (setError out) vbInCnt sdg.pduHdr) := by
  rcases hx : x w with ⟨res, w'⟩
  rw [hx] at h
  by_cases hstop : Unanswered vb out.1
  · obtain rfl : res = none := h.unanswered hstop
    exact .inl ⟨hstop, by rw [bind_eq_of_none hx]⟩
  · obtain ⟨sdg', ret', rfl, hreq, hsender, hhdr⟩ := h.answered hstop
    exact .inr ⟨hstop, sdg', ret', w', bind_eq_of_some hx, h.state, hreq, hsender, hhdr⟩

/-- **A round of `snmp_set` over Lua groups**: the outcome of the varbind on its way, and then the
end or the other varbinds. -/
theorem luaAgent_round {root : MibNode} {vs : ViewState} {groups : Int → LuaGroup σ}
    {objs : Int → LuaObjects} (hobjs : ∀ callback, (groups callback).objs = objs callback)
    {sdg₀ : SnmpDatagram} (hanti : Antichain (writeViews vs sdg₀)) (hsdg : sdg.sender = sdg₀.sender)
    (vb : VarBind) (vbs : List VarBind) (vbInCnt : UInt32) (hreq : ret.request = .set)
    (w : World Event σ) :
    ∃ out st, RouteOutcome groups (valueLen vb) w.state out st (routeOf root vs objs sdg₀ vb) ∧
      ((Unanswered vb out.1 ∧
          (snmpSetLoop (luaAgent root vs groups) (vb :: vbs) vbInCnt sdg ret w).1 = none) ∨
        (¬ Unanswered vb out.1 ∧ ∃ sdg' ret' w',
          snmpSetLoop (luaAgent root vs groups) (vb :: vbs) vbInCnt sdg ret w =
            snmpSetLoop (luaAgent root vs groups) vbs (vbInCnt + 1) sdg' ret' w' ∧
          w'.state = st ∧ ret'.request = .set ∧ sdg'.sender = sdg₀.sender ∧
          sdg'.pduHdr = reportError (setError out) (vbInCnt + 1) sdg.pduHdr)) := by
  have hviews : viewsOf (luaAgent root vs groups) sdg .write = writeViews vs sdg₀ :=
    writeViews_congr hsdg
  have hanti' : Antichain (viewsOf (luaAgent root vs groups) sdg .write) := hviews ▸ hanti
  have hroute : ∀ var : Variable, var.len.toNat = valueLen vb → var.tag = vb.valueType →
      RouteOutcome groups (valueLen vb) w.state
        (setOutcome (luaAgent root vs groups) (writeViews vs sdg₀) vb.oid var w.state).1
        (setOutcome (luaAgent root vs groups) (writeViews vs sdg₀) vb.oid var w.state).2
        (routeOf root vs objs sdg₀ vb) := by
    intro var hlen htag
    rw [routeOf, ← hlen, ← htag]
    exact setOutcome_luaAgent root vs hobjs (writeViews vs sdg₀) vb.oid var w.state
  rw [snmpSetLoop_cons]
  rcases loadValue_bind vb ret fun loaded =>
      (mibSet (luaAgent root vs groups) sdg vb.oid loaded >>= answerSet sdg vb (vbInCnt + 1)) >>=
        fun p => snmpSetLoop (luaAgent root vs groups) vbs (vbInCnt + 1) p.1 p.2 with
    ⟨hvb, heq⟩ | ⟨hvb, dec, hdec, heq⟩
  · -- nothing is called, and any outcome of the varbind will do
    refine ⟨_, _, hroute { tag := vb.valueType, len := UInt16.ofNat (valueLen vb) } ?_ rfl,
      .inl ⟨.inl hvb, by rw [heq]; rfl⟩⟩
    rw [valueLen]
    simp
  · rw [heq]
    obtain ⟨res, w', hset, hsettled, hstate⟩ := mibSet_settles hanti' vb.oid
      (show (ret.load vb dec).request = .set from hreq) w
    rw [hviews] at hsettled hstate
    have hround := answerSet_round sdg (vbInCnt + 1) hsettled (load_len hdec ret) hvb w'
    have hx : (mibSet (luaAgent root vs groups) sdg vb.oid (ret.load vb dec) >>=
        answerSet sdg vb (vbInCnt + 1)) w = answerSet sdg vb (vbInCnt + 1) res w' :=
      bind_eq_of_some hset
    rw [hstate, ← hx] at hround
    have hbind := hround.bind fun p =>
      snmpSetLoop (luaAgent root vs groups) vbs (vbInCnt + 1) p.1 p.2
    rw [hsdg] at hbind
    exact ⟨_, _, hroute (ret.load vb dec).var (load_len hdec ret) rfl, hbind⟩

/-! ### Requests -/

/-- A `set_f` has done its work. -/
def Succeeded (r : Option (Option Int32)) : Prop := ∃ errStat, r = some errStat ∧ errStat.getD 0 = 0

/-- The functions `set_f` are atomic: one that raises or returns an error has changed nothing. -/
def Atomic (groups : Int → LuaGroup σ) : Prop :=
  ∀ callback path inst val st, ¬ Succeeded ((groups callback).setF path inst val st).1 →
    ((groups callback).setF path inst val st).2 = st

/-- **All or nothing**: whatever the functions of the groups are, an error in the response to the
request means that the variables are as they were. -/
def AllOrNothing (root : MibNode) (vs : ViewState) (objs : Int → LuaObjects)
    (sdg : SnmpDatagram) : Prop :=
  ∀ (σ : Type) (groups : Int → LuaGroup σ), (∀ callback, (groups callback).objs = objs callback) →
    Atomic groups → ∀ w sdg' w',
      snmpRequestDispatch (luaAgent root vs groups) sdg w = (some (some sdg'), w') →
        sdg'.pduHdr.errStat ≠ 0 → w'.state = w.state

/-- A varbind comes to a `set_f`, and its success is answered. -/
def writes (route : SetRoute) (vb : VarBind) : Bool :=
  match route with
  | .refused _ => false
  | .sets _ _ tag _ => ¬ Unanswered vb tag

/-- A varbind is not answered, whatever the functions do. -/
def unanswerable (route : SetRoute) (vb : VarBind) : Bool :=
  match route with
  | .refused out => Unanswered vb out.1
  | .sets _ _ _ _ => vb.Stuck ∨ 255 < vb.oid.length

/-- The value passes the check that comes after `set_f`. -/
def passesCheck : SetRoute → Bool
  | .refused _ => true
  | .sets _ _ tag _ => checkedTag tag

theorem asn1TagValid_of_checkedTag (h : checkedTag tag = true) : asn1TagValid tag = true := by
  simp only [checkedTag, Bool.or_eq_true, decide_eq_true_eq] at h
  rcases h with ((((((rfl | rfl) | rfl) | rfl) | rfl) | rfl) | rfl) <;> rfl

/-- A call of `set_f` that has succeeded with a checked value stands. -/
theorem standing_succeeded {len : ℕ} {val : LuaVal} (hval : Pushed len tag val)
    (hcheck : checkedTag tag = true) {res : Option (Option Int32)} (hres : Succeeded res) :
    standing r (setResult val tag res) = (tag, 0) := by
  obtain ⟨errStat, rfl, hzero⟩ := hres
  have hfound : isFound (tag, 0) = true := by
    simp [isFound, asn1TagValid_of_checkedTag hcheck]
  rw [setResult, hval.checked, if_pos hcheck, hzero, standing, if_pos (.inr hfound)]

/-- A varbind whose setting succeeds is not answered when it or its value is too long. -/
theorem unanswered_of_not_writes {val : LuaVal} (hval : Pushed (valueLen vb) tag val)
    (h : Unanswered vb tag) {res : Option (Option Int32)} (hres : Succeeded res) :
    Unanswered vb (standing r (setResult val tag res)).1 := by
  rcases h with hvb | hlong | ⟨rfl, hlong⟩
  · exact .inl hvb
  · exact .inr (.inl hlong)
  · rw [standing_succeeded hval rfl hres]
    exact .inr (.inr ⟨rfl, hlong⟩)

theorem reportError_errStat (err : Int32) (vbInCnt : UInt32) (hdr : PduHdr) :
    (reportError err vbInCnt hdr).errStat ≠ 0 ↔ hdr.errStat ≠ 0 ∨ err ≠ 0 := by
  rw [reportError]
  by_cases hhdr : hdr.errStat = 0
  · by_cases herr : err = 0 <;> simp [hhdr, herr]
  · simp [hhdr]

section

variable {root : MibNode} {vs : ViewState} {objs : Int → LuaObjects} {sdg₀ : SnmpDatagram}
  {groups : Int → LuaGroup σ}

/-- **Run lemma**: without a varbind that writes, a request that is answered has changed
nothing. -/
theorem setLoop_unchanged (hobjs : ∀ callback, (groups callback).objs = objs callback)
    (hatomic : Atomic groups) (hanti : Antichain (writeViews vs sdg₀))
    (hno : ∀ vb ∈ vbs, writes (routeOf root vs objs sdg₀ vb) vb = false) (vbInCnt : UInt32)
    (hsdg : sdg.sender = sdg₀.sender) (hreq : ret.request = .set)
    (h : snmpSetLoop (luaAgent root vs groups) vbs vbInCnt sdg ret w = (some sdg', w')) :
    w'.state = w.state := by
  induction vbs generalizing vbInCnt sdg ret w with
  | nil =>
    obtain ⟨-, rfl⟩ := pure_eq_some_iff.mp h
    rfl
  | cons vb vbs ih =>
    obtain ⟨hvb, hvbs⟩ := forall_mem_cons.mp hno
    obtain ⟨out, st, hroute, ⟨-, hnone⟩ | ⟨hgo, sdg₁, ret₁, w₁, heq, rfl, hreq₁, hsender, -⟩⟩ :=
      luaAgent_round hobjs hanti hsdg vb vbs vbInCnt hreq w
    · rw [h] at hnone
      cases hnone
    · rw [heq] at h
      rw [ih hvbs _ hsender hreq₁ h]
      cases hr : routeOf root vs objs sdg₀ vb with
      | refused out' =>
        rw [hr] at hroute
        exact hroute.2
      | sets callback t tag r =>
        rw [hr] at hroute hvb
        obtain ⟨val, hval, rfl, hst⟩ := hroute
        rw [hst]
        refine hatomic _ _ _ _ _ fun hres => hgo ?_
        exact unanswered_of_not_writes hval (by simpa [writes] using hvb) hres

/-- **Run lemma**: with a varbind that is never answered there is no response. -/
theorem setLoop_unanswered (hobjs : ∀ callback, (groups callback).objs = objs callback)
    (hanti : Antichain (writeViews vs sdg₀))
    (hstop : ∃ vb ∈ vbs, unanswerable (routeOf root vs objs sdg₀ vb) vb = true) (vbInCnt : UInt32)
    (hsdg : sdg.sender = sdg₀.sender) (hreq : ret.request = .set) (w : World Event σ) :
    (snmpSetLoop (luaAgent root vs groups) vbs vbInCnt sdg ret w).1 = none := by
  induction vbs generalizing vbInCnt sdg ret w with
  | nil => simp at hstop
  | cons vb vbs ih =>
    obtain ⟨out, st, hroute, ⟨-, hnone⟩ | ⟨hgo, sdg₁, ret₁, w₁, heq, -, hreq₁, hsender, -⟩⟩ :=
      luaAgent_round hobjs hanti hsdg vb vbs vbInCnt hreq w
    · exact hnone
    · rw [heq]
      rcases (exists_mem_cons_iff _ _ _).mp hstop with hvb | hvbs
      · cases hr : routeOf root vs objs sdg₀ vb with
        | refused out' =>
          rw [hr] at hroute hvb
          obtain ⟨rfl, -⟩ := hroute
          exact absurd (by simpa [unanswerable] using hvb) hgo
        | sets callback t tag r =>
          rw [hr] at hvb
          have hstuck : vb.Stuck ∨ 255 < vb.oid.length := by simpa [unanswerable] using hvb
          exact absurd (hstuck.imp_right .inl) hgo
      · exact ih hvbs _ hsender hreq₁ w₁

/-- A single varbind whose value passes the check: an error means that nothing was set. -/
theorem setLoop_single (hobjs : ∀ callback, (groups callback).objs = objs callback)
    (hatomic : Atomic groups) (hanti : Antichain (writeViews vs sdg₀))
    (hcheck : passesCheck (routeOf root vs objs sdg₀ vb) = true) (vbInCnt : UInt32)
    (hsdg : sdg.sender = sdg₀.sender) (herr : sdg.pduHdr.errStat = 0) (hreq : ret.request = .set)
    (h : snmpSetLoop (luaAgent root vs groups) [vb] vbInCnt sdg ret w = (some sdg', w'))
    (herr' : sdg'.pduHdr.errStat ≠ 0) : w'.state = w.state := by
  obtain ⟨out, st, hroute, ⟨-, hnone⟩ | ⟨-, sdg₁, ret₁, w₁, heq, rfl, -, -, hhdr⟩⟩ :=
    luaAgent_round hobjs hanti hsdg vb [] vbInCnt hreq w
  · rw [h] at hnone
    cases hnone
  · rw [heq] at h
    obtain ⟨rfl, rfl⟩ := pure_eq_some_iff.mp h
    cases hr : routeOf root vs objs sdg₀ vb with
    | refused out' =>
      rw [hr] at hroute
      exact hroute.2
    | sets callback t tag r =>
      rw [hr] at hroute hcheck
      obtain ⟨val, hval, rfl, hst⟩ := hroute
      rw [hst]
      refine hatomic _ _ _ _ _ fun hres => ?_
      rw [hhdr, reportError_errStat, standing_succeeded hval hcheck hres] at herr'
      have hvalid := asn1TagValid_of_checkedTag hcheck
      simp [herr, setError, hvalid] at herr'

/-! ### Functions that fail after the first success -/

/-- Groups over a bit. A `set_f` sets the bit, and raises an error when it is set. It also does so for
OIDs that are too long, so that these are answered. -/
def vetoing (objs : Int → LuaObjects) (callback : Int) : LuaGroup Bool where
  objs := objs callback
  getF _ _ st := (none, st)
  setF _ _ val st := if st = true ∨ 255 < val.elems.length then (none, st) else (some none, true)

theorem atomic_vetoing (objs : Int → LuaObjects) : Atomic (vetoing objs) := by
  intro callback path inst val st hfail
  rw [vetoing] at hfail ⊢
  dsimp only at hfail ⊢
  split at hfail
  · next hveto => rw [if_pos hveto]
  · exact absurd ⟨none, rfl, rfl⟩ hfail

theorem setTarget_error_ne_zero {objs : LuaObjects} {tab : List Block} {s : List ℕ}
    {errStat : Int32} (h : setTarget objs tab s tag = .error errStat) : errStat ≠ 0 := by
  rw [setTarget.eq_def] at h
  split at h
  · cases h
    decide
  · split at h
    · split at h
      · cases h
        decide
      · split at h
        · cases h
          decide
        · cases h
    · split at h
      · split at h
        · cases h
          decide
        · split at h
          · cases h
            decide
          · split at h
            · cases h
              decide
            · cases h
      · cases h
        decide
    · cases h
      decide

theorem setError_of_errStat (h : out.2 ≠ 0) : setError out ≠ 0 := by
  rwa [setError, if_neg fun hz => h hz.1]

theorem setError_standing (h : setError out ≠ 0) : setError (standing r out) ≠ 0 := by
  rw [standing]
  split
  · exact h
  · decide

/-- A varbind that is refused is answered with an error. -/
theorem setError_refused {valueType : UInt8}
    (h : setRoute root objs views oid valueType = .refused out) : setError out ≠ 0 := by
  rw [setRoute] at h
  cases hsplit : splitCover oid views with
  | none =>
    simp only [hsplit, SetRoute.refused.injEq] at h
    rw [← h]
    exact setError_of_errStat (show snmpErrStatNoAccess ≠ 0 by decide)
  | some s =>
    simp only [hsplit] at h
    split at h
    · obtain rfl := SetRoute.refused.inj h
      decide
    · split at h
      · obtain rfl := SetRoute.refused.inj h
        decide
      · obtain rfl := SetRoute.refused.inj h
        exact setError_standing (by decide)
      · split at h
        · obtain rfl := SetRoute.refused.inj h
          decide
        · split at h
          · next herror =>
              obtain rfl := SetRoute.refused.inj h
              exact setError_standing (setError_of_errStat (setTarget_error_ne_zero herror))
          · split at h
            · obtain rfl := SetRoute.refused.inj h
              decide
            · cases h

/-- A varbind that can be answered is answered by these functions. It has an error unless it is
the first one that is set. -/
theorem vetoing_route {b b' : Bool}
    (h : RouteOutcome (vetoing objs) (valueLen vb) b out b' (routeOf root vs objs sdg₀ vb))
    (hstop : unanswerable (routeOf root vs objs sdg₀ vb) vb = false) :
    ¬ Unanswered vb out.1 ∧ b' = (b || writes (routeOf root vs objs sdg₀ vb) vb) ∧
      (setError out ≠ 0 ∨ (b = false ∧ b' = true ∧
        passesCheck (routeOf root vs objs sdg₀ vb) = true)) := by
  cases hr : routeOf root vs objs sdg₀ vb with
  | refused out' =>
    rw [hr] at h hstop
    obtain ⟨rfl, rfl⟩ := h
    refine ⟨by simpa [unanswerable] using hstop, by simp [writes], .inl ?_⟩
    exact setError_refused hr
  | sets callback t tag r =>
    rw [hr] at h hstop
    have hname : ¬ (vb.Stuck ∨ 255 < vb.oid.length) := by simpa [unanswerable] using hstop
    obtain ⟨val, hval, hout, hb'⟩ := h
    have hraised : standing r (setResult val tag none) = (asn1TagNoSuchObj, 0) :=
      standing_noSuchObj r
    have hgo : ¬ Unanswered vb asn1TagNoSuchObj := by
      rintro (hvb | hlong | ⟨hobjid, -⟩)
      · exact hname (.inl hvb)
      · exact hname (.inr hlong)
      · exact absurd hobjid (by decide)
    have hveto : 255 < val.elems.length ↔ Unanswered vb tag := by
      rw [hval.elems, Unanswered, ← or_assoc, or_iff_right hname]
      by_cases htag : tag = asn1TagObjid <;> simp [htag]
    -- something was set before, or the value is too long: an error is raised
    by_cases hb : b = true ∨ 255 < val.elems.length
    · simp only [vetoing, hb, if_true, hraised] at hout hb'
      subst hout
      refine ⟨hgo, ?_, .inl (by decide)⟩
      rw [hb', writes]
      rcases hb with rfl | hb
      · simp
      · simp [hveto.mp hb]
    · simp only [vetoing, hb, if_false] at hout hb'
      subst hb'
      obtain ⟨hbit, hshort⟩ := not_or.mp hb
      rw [hveto] at hshort
      have hsucceeded : Succeeded (some none) := ⟨none, rfl, rfl⟩
      -- the bit is set, and the check comes behind that
      by_cases hcheck : checkedTag tag = true
      · rw [standing_succeeded hval hcheck hsucceeded] at hout
        subst hout
        exact ⟨hshort, by simp [writes, hshort], .inr ⟨by simpa using hbit, rfl, hcheck⟩⟩
      · have hfail : setResult val tag (some none) = (asn1TagNoSuchObj, 0) := by
          rw [setResult, hval.checked, if_neg hcheck]
        rw [hfail, standing_noSuchObj] at hout
        subst hout
        exact ⟨hgo, by simp [writes, hshort], .inl (by decide)⟩

/-- **Run lemma** for these functions: the request is answered, the bit is set when a varbind writes,
an error stays, and there is one when a varbind comes after the bit was set. -/
theorem vetoing_loop (hanti : Antichain (writeViews vs sdg₀))
    (hstop : ∀ vb ∈ vbs, unanswerable (routeOf root vs objs sdg₀ vb) vb = false) (vbInCnt : UInt32)
    (hsdg : sdg.sender = sdg₀.sender) (hreq : ret.request = .set) (w : World Event Bool) :
    ∃ sdg' w', snmpSetLoop (luaAgent root vs (vetoing objs)) vbs vbInCnt sdg ret w =
        (some sdg', w') ∧
      w'.state = (w.state || vbs.any fun vb => writes (routeOf root vs objs sdg₀ vb) vb) ∧
      (sdg.pduHdr.errStat ≠ 0 ∨ (w.state = true ∧ vbs ≠ []) → sdg'.pduHdr.errStat ≠ 0) := by
  induction vbs generalizing vbInCnt sdg ret w with
  | nil => exact ⟨sdg, w, rfl, by simp, by simp⟩
  | cons vb vbs ih =>
    obtain ⟨hvb, hvbs⟩ := forall_mem_cons.mp hstop
    obtain ⟨out, st, hroute, hround⟩ :=
      luaAgent_round (fun _ => rfl) hanti hsdg vb vbs vbInCnt hreq w
    obtain ⟨hgo, hst, herr⟩ := vetoing_route hroute hvb
    obtain ⟨hno, -⟩ | ⟨-, sdg₁, ret₁, w₁, heq, rfl, hreq₁, hsender, hhdr⟩ := hround
    · exact absurd hno hgo
    · obtain ⟨sdg', w', hloop, hstate, herr'⟩ := ih hvbs (vbInCnt + 1) hsender hreq₁ w₁
      refine ⟨sdg', w', heq.trans hloop, ?_, fun h => herr' (.inl ?_)⟩
      · rw [hstate, hst, any_cons, Bool.or_assoc]
      · rw [hhdr, reportError_errStat]
        rcases h with h | ⟨h, -⟩
        · exact .inl h
        · refine .inr (herr.resolve_right fun hfirst => ?_)
          rw [h] at hfirst
          exact absurd hfirst.1 (by simp)

/-- With these functions there is an error for the second varbind at the latest. -/
theorem vetoing_error (hanti : Antichain (writeViews vs sdg₀))
    (hstop : ∀ vb' ∈ vb :: vbs, unanswerable (routeOf root vs objs sdg₀ vb') vb' = false)
    (vbInCnt : UInt32) (hsdg : sdg.sender = sdg₀.sender) (hreq : ret.request = .set)
    {w w' : World Event Bool}
    (h : snmpSetLoop (luaAgent root vs (vetoing objs)) (vb :: vbs) vbInCnt sdg ret w =
      (some sdg', w'))
    (hmore : sdg.pduHdr.errStat ≠ 0 ∨ vbs ≠ [] ∨ passesCheck
    (routeOf root vs objs sdg₀ vb) = false) :
    sdg'.pduHdr.errStat ≠ 0 := by
  obtain ⟨hvb, hvbs⟩ := forall_mem_cons.mp hstop
  obtain ⟨out, st, hroute, hround⟩ :=
    luaAgent_round (fun _ => rfl) hanti hsdg vb vbs vbInCnt hreq w
  obtain ⟨hgo, -, herr⟩ := vetoing_route hroute hvb
  obtain ⟨hno, -⟩ | ⟨-, sdg₁, ret₁, w₁, heq, rfl, hreq₁, hsender, hhdr⟩ := hround
  · exact absurd hno hgo
  · obtain ⟨sdg₂, w₂, hloop, -, herr'⟩ := vetoing_loop hanti hvbs (vbInCnt + 1) hsender hreq₁ w₁
    rw [heq, hloop] at h
    obtain rfl : sdg₂ = sdg' := some.inj (Prod.mk.inj h).1
    refine herr' ?_
    rw [hhdr, reportError_errStat]
    rcases herr with herr | ⟨-, hset, hcheck⟩
    · exact .inl (.inr herr)
    · rcases hmore with hmore | hmore | hmore
      · exact .inl (.inl hmore)
      · exact .inr ⟨hset, hmore⟩
      · rw [hcheck] at hmore
        cases hmore

theorem snmpRequestDispatch_set {ag : Agent σ} (hpdu : sdg.pduHdr.pduType = snmpReqSet) :
    snmpRequestDispatch ag sdg w = (some (some sdg'), w') ↔
      snmpSetLoop ag sdg.vbInList 0 (markResponse sdg) { request := .set } w =
        (some sdg', w') := by
  have hdispatch : snmpRequestDispatch ag sdg = some <$> snmpSet ag (markResponse sdg) := by
    rw [snmpRequestDispatch, hpdu]
    rfl
  rw [hdispatch, Traced.map_eq_bind, Traced.bind_eq_some_iff]
  constructor
  · rintro ⟨sdg₁, w₁, hrun, hpure⟩
    obtain ⟨heq, rfl⟩ := Traced.pure_eq_some_iff.mp hpure
    rwa [← some.inj heq]
  · intro hrun
    exact ⟨sdg', w', hrun, rfl⟩

/-- **SET requests that are all or nothing**: those of which nothing can be set, those that are
never answered, and those of a single varbind that brings no error status along and has a value that
passes the check. -/
theorem allOrNothing_iff (root : MibNode) {vs : ViewState} {ok : Oid → Prop}
    (hr : vs.Reachable ok) (objs : Int → LuaObjects) {sdg : SnmpDatagram}
    (hpdu : sdg.pduHdr.pduType = snmpReqSet) (hu : ∀ u, sdg.user = some u → u ∈ vs.users) :
    AllOrNothing root vs objs sdg ↔
      (∀ vb ∈ sdg.vbInList, writes (routeOf root vs objs sdg vb) vb = false) ∨
      (∃ vb ∈ sdg.vbInList, unanswerable (routeOf root vs objs sdg vb) vb = true) ∨
      (sdg.vbInList.length = 1 ∧ sdg.pduHdr.errStat = 0 ∧
        ∀ vb ∈ sdg.vbInList, passesCheck (routeOf root vs objs sdg vb) = true) := by
  have hknown : KnownUser (luaAgent root vs (vetoing objs)) sdg := hu
  have hanti : Antichain (writeViews vs sdg) := viewsOf_antichain hr hknown .write
  have hsdg : (markResponse sdg).sender = sdg.sender := rfl
  constructor
  · intro hall
    by_contra hcon
    obtain ⟨hwrites, hrest⟩ := not_or.mp hcon
    obtain ⟨hanswered, hmore⟩ := not_or.mp hrest
    have hstop : ∀ vb ∈ sdg.vbInList, unanswerable (routeOf root vs objs sdg vb) vb = false :=
      fun vb hvb => Bool.eq_false_iff.mpr fun h => hanswered ⟨vb, hvb, h⟩
    obtain ⟨sdg', w', hloop, hstate, -⟩ := vetoing_loop hanti hstop 0 hsdg
      (show ({ request := .set } : OidSearchRes).request = .set from rfl) ⟨false, []⟩
    have hset : (sdg.vbInList.any fun vb => writes (routeOf root vs objs sdg vb) vb) = true := by
      rw [any_eq_true]
      by_contra hno
      exact hwrites fun vb hvb => Bool.eq_false_iff.mpr fun h => hno ⟨vb, hvb, h⟩
    have herr : sdg'.pduHdr.errStat ≠ 0 := by
      cases hvbs : sdg.vbInList with
      | nil => simp [hvbs] at hset
      | cons vb vbs =>
        rw [hvbs] at hstop hloop hmore
        refine vetoing_error hanti hstop 0 hsdg rfl hloop ?_
        by_contra hfine
        push Not at hfine
        obtain ⟨hhdr, rfl, hcheck⟩ := hfine
        exact hmore ⟨rfl, hhdr, by simpa using hcheck⟩
    have hsame := hall Bool (vetoing objs) (fun _ => rfl) (atomic_vetoing objs) _ sdg' w'
      ((snmpRequestDispatch_set hpdu).mpr hloop) herr
    rw [hstate, hset] at hsame
    cases hsame
  · intro hcond σ groups hobjs hatomic w sdg' w' hrun herr
    rw [snmpRequestDispatch_set hpdu] at hrun
    obtain hno | hstop | ⟨hlen, hhdr, hcheck⟩ := hcond
    · exact setLoop_unchanged hobjs hatomic hanti hno 0 hsdg rfl hrun
    · have hnone := setLoop_unanswered hobjs hanti hstop 0 hsdg
        (show ({ request := .set } : OidSearchRes).request = .set from rfl) w
      rw [hrun] at hnone
      cases hnone
    · obtain ⟨vb, hvb⟩ := length_eq_one_iff.mp hlen
      rw [hvb] at hrun hcheck
      exact setLoop_single hobjs hatomic hanti (hcheck vb mem_cons_self) 0 hsdg hhdr rfl hrun
        herr

end

/-! ### A request with two varbinds -/

/-- A tree with one group, at `1.3`. -/
def oneScalarRoot : MibNode := (mibNodeReg (.group []) [1, 3] 0).2

/-- A community with write access to everything below `1`. -/
def oneScalarViews : ViewState := mibCommunityReg {} [1] [0x70] .write

/-- A group with an integer that can be set as its first object. -/
def oneScalar : LuaObjects := AList.singleton 1 (.scalar (.settable asn1TagInt))

/-- A SET of the scalar to seven, and then of the objects at `oids`. -/
def scalarSet (oids : List Oid) : SnmpDatagram where
  contextName := [0x70]
  pduHdr := { pduType := snmpReqSet }
  vbInList := ([1, 3, 1, 0] :: oids).map fun oid =>
    { oid := oid, valueType := asn1TagInt, value := [7] }

/-- A SET of the scalar alone is all or nothing. -/
theorem scalarSet_allOrNothing :
    AllOrNothing oneScalarRoot oneScalarViews (fun _ => oneScalar) (scalarSet []) := by
  have hreach : oneScalarViews.Reachable fun _ => True :=
    .communityReg [1] [0x70] .write trivial .init
  refine (allOrNothing_iff oneScalarRoot hreach (fun _ => oneScalar) rfl
    (by simp [scalarSet])).mpr (.inr (.inr ⟨rfl, rfl, ?_⟩))
  decide +kernel

/-- The integer as the state of the MIB. -/
def oneScalarGroup : LuaGroup Int where
  objs := oneScalar
  getF _ _ st := (some (.num st, none), st)
  setF _ _ val _ := (some none, val.toInteger)

/-- **SET is not all or nothing**: the second varbind is not writable, and the integer is set. -/
theorem scalarSet_half_done :
    let result := snmpRequestDispatch
      (luaAgent oneScalarRoot oneScalarViews fun _ => oneScalarGroup) (scalarSet [[1, 3, 2, 0]])
      ⟨0, []⟩
    result.1.map (Option.map fun sdg => (sdg.pduHdr.errStat, sdg.pduHdr.errIdx)) =
        some (some (snmpErrStatNotWritable, 2)) ∧
      result.2.state = 7 := by
  decide +kernel

end SmithSnmp
