import SmithSnmp.MsgTrace
import SmithSnmp.NonInterference
import SmithSnmp.SearchResults

/-!
# Further Views

GET and SET search the views of a principal one after the other, and all searches work on one
search result. A view that does not cover the OID overwrites it: the tag becomes noSuchObject and
the error status zero. The loop stops at a value without an error, and also at a view that the OID
compares smaller with.

So views that have nothing to do with an OID change what is reported for it. Those after the view
that covers the OID overwrite errors and missing instances. Those before it can end the search too
early, and a SET handler that is called after them gets no value, as the tag of the variable is
gone.

## Main results

* `overViews_missed`: views that do not cover the OID.
* `furtherViews_report_iff`: when a report is the same with further views as without.
-/

namespace SmithSnmp

open Lib MibNode
open Option hiding or_assoc

variable {σ : Type}

variable {view oid : Oid} {l r : List Oid} {ret : OidSearchRes}

/-! ### Reports -/

/-- What is reported of a search result: the tag, the error status, and the value before it is
encoded. -/
structure Shown where
  tag : UInt8
  errStat : Int32
  len : UInt16
  value : List UInt8
deriving DecidableEq

/-- What a search result shows. -/
def OidSearchRes.shown (ret : OidSearchRes) : Shown :=
  { tag := ret.var.tag, errStat := ret.errStat, len := ret.var.len, value := ret.var.value }

/-- What `snmp_get` reports: the tag, the value and the error status. There is no report when the
value cannot be encoded. -/
def Shown.readReport (s : Shown) : Option (UInt8 × List UInt8 × Int32) :=
  (berValueEncTry s.value s.len.toNat s.tag).map fun _ =>
    (s.tag, berValueEnc s.value s.len.toNat s.tag, s.errStat)

/-- What `snmp_set` reports beside the tag of the request: the value and the error status. -/
def Shown.setReport (s : Shown) : Option (List UInt8 × Int32) :=
  (berValueEncTry s.value s.len.toNat s.tag).map fun valLen =>
    (berValueEnc s.value valLen s.tag,
      if s.errStat = 0 ∧ asn1TagValid s.tag = false then snmpErrStatNotWritable else s.errStat)

/-! ### The view that covers the OID -/

/-- What becomes of the search result when the view does not cover the OID. -/
def missed (oid : Oid) (ret : OidSearchRes) : OidSearchRes :=
  { ret with oid := oid, errStat := 0, var := { ret.var with tag := asn1TagNoSuchObj } }

/-- The tag and the error status of a reply. -/
def replyOutcome : Reply → UInt8 × Int32
  | .fail => (asn1TagNoSuchObj, 0)
  | .ret errStat _ _ tag => (tag, errStat)

/-- The tag and the error status of a search that is not stopped by the view, with the argument
`arg` for the handler. -/
def exactOutcome (ag : Agent σ) (oid : Oid) (request : Request) (arg : Option (LuaVal × UInt8))
    (st : σ) : UInt8 × Int32 :=
  match mibTreeWalk oid ag.root with
  | (.group _, _) => (asn1TagNoSuchObj, 0)
  | (.inst _, []) => (asn1TagNoSuchInst, 0)
  | (.inst callback, x :: rest) =>
    replyOutcome (ag.handlers.call callback request (x :: rest) arg st).1

/-- A value without an error. -/
def isFound (out : UInt8 × Int32) : Bool := out.2 = 0 && asn1TagValid out.1

/-- What a reply makes of a value in the variable. -/
def replyShown (request : Request) (len : UInt16) (value : List UInt8) : Reply → Option Shown
  | .fail => some ⟨asn1TagNoSuchObj, 0, len, value⟩
  | .ret errStat _ val tag =>
    if errStat = 0 ∧ asn1TagValid tag = true ∧ request ≠ .set then
      if asn1TagCopied tag = true then
        some ⟨tag, errStat, (luaCopy tag val).1, pokeBytes value (luaCopy tag val).2⟩
      else none
    else some ⟨tag, errStat, len, value⟩

theorem takeReply_shown (path : Oid) (ret : OidSearchRes) (reply : Reply) :
    (takeReply path ret reply).map OidSearchRes.shown =
      replyShown ret.request ret.var.len ret.var.value reply := by
  cases reply with
  | fail => rfl
  | ret errStat subOid val tag =>
    rw [takeReply, replyShown]
    by_cases hfound : errStat = 0 ∧ asn1TagValid tag = true
    · by_cases hset : ret.request = .set
      · simp [hfound, hset, OidSearchRes.shown]
      · by_cases hcopied : asn1TagCopied tag = true <;>
          simp [hfound, hset, hcopied, OidSearchRes.shown]
    · have hfound' : ¬ (errStat = 0 ∧ asn1TagValid tag = true ∧ ret.request ≠ .set) :=
        fun h => hfound ⟨h.1, h.2.1⟩
      rw [if_neg hfound, if_neg hfound']
      rfl

/-- What a search that is not stopped by the view shows. -/
def exactShown (ag : Agent σ) (oid : Oid) (request : Request) (arg : Option (LuaVal × UInt8))
    (len : UInt16) (value : List UInt8) (st : σ) : Option Shown :=
  match mibTreeWalk oid ag.root with
  | (.group _, _) => some ⟨asn1TagNoSuchObj, 0, len, value⟩
  | (.inst _, []) => some ⟨asn1TagNoSuchInst, 0, len, value⟩
  | (.inst callback, x :: rest) =>
    replyShown request len value (ag.handlers.call callback request (x :: rest) arg st).1

/-- The argument of a handler. -/
def argOf (ret : OidSearchRes) : Option (LuaVal × UInt8) :=
  if ret.request = .set then some (luaPush ret.var) else none

/-- **The search in the view that covers the OID.** -/
theorem searchExact_covered (ag : Agent σ) (hcov : view <+: oid) (ret : OidSearchRes)
    (w : World Event σ) :
    (searchExact ag oid view ret w).1.map OidSearchRes.shown =
      exactShown ag oid ret.request (argOf ret) ret.var.len ret.var.value w.state := by
  have hpos : ¬ oidCover view oid ≤ 0 := not_le.mpr ((oidCover_pos_iff view oid).mpr hcov)
  have hsearch : (searchExact ag oid view ret w).1 =
      (mibTreeSearch ag.handlers ag.root view oid ret w).1.map Prod.snd :=
    Traced.bind_pure_fst _ _ w
  rw [hsearch, exactShown]
  simp only [mibTreeSearch, hpos, if_false]
  rcases hwalk : mibTreeWalk oid ag.root with ⟨⟨subs⟩ | callback, _ | ⟨x, rest⟩⟩
  · rfl
  · rfl
  · rfl
  · dsimp only
    rw [Traced.bind_pure_fst, mibInstanceSearch_apply, map_map, map_map]
    exact takeReply_shown _ _ _

/-- What is shown in terms of the tag and the error status. Only a value of a read is copied. -/
theorem exactShown_eq (ag : Agent σ) (oid : Oid) (request : Request)
    (arg : Option (LuaVal × UInt8)) (len : UInt16) (value : List UInt8) (st : σ)
    (h : request = .set ∨ isFound (exactOutcome ag oid request arg st) = false) :
    exactShown ag oid request arg len value st =
      some ⟨(exactOutcome ag oid request arg st).1, (exactOutcome ag oid request arg st).2, len,
        value⟩ := by
  rw [exactOutcome] at h
  rw [exactShown, exactOutcome]
  rcases hwalk : mibTreeWalk oid ag.root with ⟨⟨subs⟩ | callback, _ | ⟨x, rest⟩⟩
  · rfl
  · rfl
  · rfl
  · simp only [hwalk] at h ⊢
    cases hreply : (ag.handlers.call callback request (x :: rest) arg st).1 with
    | fail => rfl
    | ret errStat subOid val tag =>
      have hnot : ¬ (errStat = 0 ∧ asn1TagValid tag = true ∧ request ≠ .set) := by
        rintro ⟨he, htag, hset⟩
        simp [hreply, replyOutcome, isFound, he, htag, hset] at h
      simp only [replyShown, hnot, if_false, replyOutcome]

/-- The tag of what a read shows. -/
theorem exactShown_tag {ag : Agent σ} {request : Request} {arg : Option (LuaVal × UInt8)}
    {len : UInt16} {value : List UInt8} {st : σ} {s : Shown}
    (h : exactShown ag oid request arg len value st = some s) :
    (s.tag, s.errStat) = exactOutcome ag oid request arg st := by
  rw [exactShown] at h
  rw [exactOutcome]
  rcases hwalk : mibTreeWalk oid ag.root with ⟨⟨subs⟩ | callback, _ | ⟨x, rest⟩⟩
  · simp only [hwalk, some.injEq] at h
    rw [← h]
  · simp only [hwalk, some.injEq] at h
    rw [← h]
  · simp only [hwalk, some.injEq] at h
    rw [← h]
  · simp only [hwalk] at h ⊢
    cases hreply : (ag.handlers.call callback request (x :: rest) arg st).1 with
    | fail =>
      simp only [hreply, replyShown, some.injEq] at h
      rw [← h]
      rfl
    | ret errStat subOid val tag =>
      simp only [hreply, replyShown] at h
      rw [replyOutcome]
      split at h
      · split at h
        · rw [← some.inj h]
        · cases h
      · rw [← some.inj h]

theorem readReport_noSuchObj (len : UInt16) (value : List UInt8) :
    Shown.readReport ⟨asn1TagNoSuchObj, 0, len, value⟩ = some (asn1TagNoSuchObj, [], 0) := by
  have hinvalid : asn1TagValid asn1TagNoSuchObj = false := rfl
  obtain ⟨henc, htry⟩ := berValue_invalid hinvalid value len.toNat
  simp [Shown.readReport, henc, htry]

/-- A read reports noSuchObject without an error if and only if that is its outcome. -/
theorem readReport_noSuchObj_iff (ag : Agent σ) (oid : Oid) (request : Request)
    (arg : Option (LuaVal × UInt8)) (len : UInt16) (value : List UInt8) (st : σ) :
    (exactShown ag oid request arg len value st).bind Shown.readReport =
        some (asn1TagNoSuchObj, [], 0) ↔
      exactOutcome ag oid request arg st = (asn1TagNoSuchObj, 0) := by
  constructor
  · intro h
    obtain ⟨s, hs, hreport⟩ := bind_eq_some_iff.mp h
    obtain ⟨_, -, heq⟩ := map_eq_some_iff.mp hreport
    rw [← exactShown_tag hs]
    simp only [Prod.mk.injEq] at heq
    rw [heq.1, heq.2.2]
  · intro h
    rw [exactShown_eq _ _ _ _ _ _ _ (.inr (by rw [h]; rfl)), h]
    exact readReport_noSuchObj len value

/-! ### The other views -/

theorem searchExact_missed (ag : Agent σ) (h : ¬ view <+: oid) (ret : OidSearchRes) :
    searchExact ag oid view ret = pure (missed oid ret) := by
  have hcov : oidCover view oid ≤ 0 := not_lt.mp (mt (oidCover_pos_iff view oid).mp h)
  simp only [searchExact, mibTreeSearch, hcov, if_true]
  rfl

theorem missed_missed (oid : Oid) (ret : OidSearchRes) :
    missed oid (missed oid ret) = missed oid ret := rfl

/-- **Views that do not cover the OID**, before others: the loop ends at one that the OID is ahead
of, and else goes on with noSuchObject as the tag. -/
theorem overViews_missed (ag : Agent σ) (hl : ∀ u ∈ l, ¬ u <+: oid) (rest : List Oid)
    (ret : OidSearchRes) :
    overViews (searchExact ag oid) (foundExact oid) oid (l ++ rest) ret =
      if l.any (fun u => oidCmp oid u < 0) then pure (missed oid ret)
      else overViews (searchExact ag oid) (foundExact oid) oid rest
        (if l = [] then ret else missed oid ret) := by
  induction l generalizing ret with
  | nil => simp
  | cons u l ih =>
    have hinvalid : asn1TagValid asn1TagNoSuchObj = false := rfl
    have hfound : foundExact oid u (missed oid ret) = decide (oidCmp oid u < 0) := by
      simp [foundExact, missed, hinvalid]
    rw [List.cons_append, overViews, searchExact_missed ag (hl u List.mem_cons_self),
      Traced.pure_bind, hfound, ih fun u' hu' => hl u' (List.mem_cons_of_mem u hu')]
    by_cases hu : oidCmp oid u < 0
    · simp [hu]
    · by_cases hnil : l = [] <;> simp [hu, hnil, missed_missed]

theorem not_ahead_of_covers (h : view <+: oid) : ¬ oidCmp oid view < 0 := by
  obtain ⟨rest, rfl⟩ := h
  induction view with
  | nil => cases rest <;> simp [oidCmp]; omega
  | cons x view ih => simpa [oidCmp] using ih

theorem overViews_covered (ag : Agent σ) (hr : ∀ u ∈ r, ¬ u <+: oid) (ret : OidSearchRes) :
    overViews (searchExact ag oid) (foundExact oid) oid (view :: r) ret =
      searchExact ag oid view ret >>= fun res => pure (if foundExact oid view res = true then res
        else if r = [] then { res with oid := oid } else missed oid res) := by
  rw [overViews]
  congr 1
  funext res
  have hrest := overViews_missed ag hr [] res
  rw [List.append_nil] at hrest
  rw [hrest]
  by_cases hfound : foundExact oid view res = true
  · rw [if_pos hfound, if_pos hfound]
  · rw [if_neg hfound, if_neg hfound]
    by_cases hnil : r = []
    · subst hnil
      rfl
    · rw [if_neg hnil, if_neg hnil]
      split <;> rfl

theorem foundExact_covered (hcov : view <+: oid) (res : OidSearchRes) :
    foundExact oid view res = isFound (res.var.tag, res.errStat) := by
  simp [foundExact, isFound, not_ahead_of_covers hcov]

/-- **The loop over all views**, by what is shown in the end. -/
theorem overViews_shown (ag : Agent σ) (hl : ∀ u ∈ l, ¬ u <+: oid) (hr : ∀ u ∈ r, ¬ u <+: oid)
    (hcov : view <+: oid) (ret : OidSearchRes) (w : World Event σ) :
    (overViews (searchExact ag oid) (foundExact oid) oid (l ++ view :: r) ret w).1.map
        OidSearchRes.shown =
      if l.any (fun u => oidCmp oid u < 0) then some (missed oid ret).shown
      else (exactShown ag oid ret.request (argOf (if l = [] then ret else missed oid ret))
          ret.var.len ret.var.value w.state).map fun s =>
        if isFound (s.tag, s.errStat) = true ∨ r = [] then s
        else { s with tag := asn1TagNoSuchObj, errStat := 0 } := by
  rw [overViews_missed ag hl]
  by_cases hahead : l.any (fun u => oidCmp oid u < 0) = true
  · rw [if_pos hahead, if_pos hahead]
    rfl
  · rw [if_neg hahead, if_neg hahead]
    set ret₁ := if l = [] then ret else missed oid ret with hret₁
    have hsame : ret₁.request = ret.request ∧ ret₁.var.len = ret.var.len ∧
        ret₁.var.value = ret.var.value := by
      rw [hret₁]
      split <;> exact ⟨rfl, rfl, rfl⟩
    rw [overViews_covered ag hr, Traced.bind_pure_fst, map_map, ← hsame.1, ← hsame.2.1,
      ← hsame.2.2, ← searchExact_covered ag hcov ret₁ w, map_map]
    congr 1
    funext res
    simp only [Function.comp_apply, foundExact_covered hcov]
    by_cases hf : isFound (res.var.tag, res.errStat) = true
    · simp [hf, OidSearchRes.shown]
    · by_cases hnil : r = [] <;> simp [hf, hnil, OidSearchRes.shown, missed]

/-- The outcome in the covering view is lost: the OID is ahead of a view before it, or there are
views after it and no value was found. -/
def lost (oid : Oid) (l r : List Oid) (out : UInt8 × Int32) : Bool :=
  l.any (fun u => oidCmp oid u < 0) || (!r.isEmpty && !isFound out)

/-- **The loop over all views**, by whether the outcome is lost. -/
theorem overViews_lost (ag : Agent σ) (hl : ∀ u ∈ l, ¬ u <+: oid) (hr : ∀ u ∈ r, ¬ u <+: oid)
    (hcov : view <+: oid) (ret : OidSearchRes) {arg : Option (LuaVal × UInt8)}
    (harg : argOf (if l = [] then ret else missed oid ret) = arg) (w : World Event σ) :
    (overViews (searchExact ag oid) (foundExact oid) oid (l ++ view :: r) ret w).1.map
        OidSearchRes.shown =
      if lost oid l r (exactOutcome ag oid ret.request arg w.state) = true then
        some ⟨asn1TagNoSuchObj, 0, ret.var.len, ret.var.value⟩
      else exactShown ag oid ret.request arg ret.var.len ret.var.value w.state := by
  rw [overViews_shown ag hl hr hcov, harg]
  by_cases hahead : l.any (fun u => oidCmp oid u < 0) = true
  · have hlost : lost oid l r (exactOutcome ag oid ret.request arg w.state) = true := by
      simp [lost, hahead]
    rw [if_pos hahead, if_pos hlost]
    rfl
  rw [if_neg hahead]
  by_cases hkept : isFound (exactOutcome ag oid ret.request arg w.state) = true ∨ r = []
  · -- the result of the covering view stands
    have hlost : ¬ lost oid l r (exactOutcome ag oid ret.request arg w.state) = true := by
      rcases hkept with hkept | hkept <;> simp [lost, hahead, hkept]
    rw [if_neg hlost]
    cases hs : exactShown ag oid ret.request arg ret.var.len ret.var.value w.state with
    | none => rfl
    | some s => rw [map_some, if_pos (by rwa [exactShown_tag hs])]
  · obtain ⟨hnf, hrne⟩ := not_or.mp hkept
    have hlost : lost oid l r (exactOutcome ag oid ret.request arg w.state) = true := by
      simp [lost, hnf, hrne]
    rw [if_pos hlost, exactShown_eq _ _ _ _ _ _ _ (.inr (Bool.eq_false_iff.mpr hnf)),
      map_some, if_neg hkept]

/-! ### With and without further views -/

/-- A principal with the views `l ++ view :: r`, and one with `view` alone, in agents that are the
same otherwise. The further views are disjoint from `view`, which covers the OID. -/
structure WithFurther (ag ag' : Agent σ) (sdg sdg' : SnmpDatagram) (aces : MibAces)
    (l r : List Oid) (view oid : Oid) : Prop where
  handlers : ag'.handlers = ag.handlers
  root : ag'.root = ag.root
  views : principalViews ag.views sdg aces = some (l ++ view :: r)
  alone : principalViews ag'.views sdg' aces = some [view]
  nodup : (l ++ view :: r).Nodup
  disjoint : ∀ u ∈ l ++ r, Incomparable u view
  covers : view <+: oid

/-- What `snmp_get` reports for an OID, from the search result `ret` on. -/
def reportGet (ag : Agent σ) (sdg : SnmpDatagram) (oid : Oid) (ret : OidSearchRes)
    (w : World Event σ) : Option (UInt8 × List UInt8 × Int32) :=
  ((mibGet ag sdg oid ret w).1.map OidSearchRes.shown).bind Shown.readReport

/-- What `snmp_set` reports for an OID. -/
def reportSet (ag : Agent σ) (sdg : SnmpDatagram) (oid : Oid) (ret : OidSearchRes)
    (w : World Event σ) : Option (List UInt8 × Int32) :=
  ((mibSet ag sdg oid ret w).1.map OidSearchRes.shown).bind Shown.setReport

/-- What a SET reports for an outcome; the value in the variable is the one of the request. -/
def setReportOf (var : Variable) (out : UInt8 × Int32) : Option (List UInt8 × Int32) :=
  Shown.setReport ⟨out.1, out.2, var.len, var.value⟩

/-- The outcome is reported as notWritable, without a value. -/
def SetRefused (var : Variable) (out : UInt8 × Int32) : Prop :=
  (out.2 = snmpErrStatNotWritable ∨ out.2 = 0 ∧ asn1TagValid out.1 = false) ∧
    (berValueEncTry var.value var.len.toNat out.1).map
      (fun valLen => berValueEnc var.value valLen out.1) = some []

instance decidableSetRefused (var : Variable) (out : UInt8 × Int32) :
    Decidable (SetRefused var out) :=
  inferInstanceAs (Decidable (_ ∧ _))

/-- This is how noSuchObject is reported. -/
theorem setReportOf_noSuchObj_iff (var : Variable) (out : UInt8 × Int32) :
    setReportOf var (asn1TagNoSuchObj, 0) = setReportOf var out ↔ SetRefused var out := by
  have hinvalid : asn1TagValid asn1TagNoSuchObj = false := rfl
  obtain ⟨htag, err⟩ := out
  have herr : (if err = 0 ∧ asn1TagValid htag = false then snmpErrStatNotWritable else err) =
      snmpErrStatNotWritable ↔ err = snmpErrStatNotWritable ∨
        err = 0 ∧ asn1TagValid htag = false := by
    split
    · next h => simp [h]
    · next h => simp [h]
  have hnone : setReportOf var (asn1TagNoSuchObj, 0) = some ([], snmpErrStatNotWritable) := by
    obtain ⟨-, htry⟩ := berValue_invalid hinvalid var.value var.len.toNat
    obtain ⟨henc, -⟩ := berValue_invalid hinvalid var.value 0
    simp [setReportOf, Shown.setReport, htry, henc, hinvalid]
  rw [hnone, eq_comm, SetRefused, setReportOf, Shown.setReport]
  cases berValueEncTry var.value var.len.toNat htag with
  | none => simp
  | some valLen =>
    simp only [map_some, some.injEq, Prod.mk.injEq, herr]
    exact and_comm

/-- What a SET handler is called with: after a view that does not cover the OID the value is
gone. -/
def setArg (l : List Oid) (var : Variable) : LuaVal × UInt8 :=
  if l = [] then luaPush var else (.nil, asn1TagNoSuchObj)

section

variable {ag ag' : Agent σ} {sdg sdg' : SnmpDatagram} {aces : MibAces} {l r : List Oid}
  {view oid : Oid}

theorem WithFurther.uncovered (h : WithFurther ag ag' sdg sdg' aces l r view oid) :
    ∀ u ∈ l ++ r, ¬ u <+: oid := fun u hu => (h.disjoint u hu).not_cover h.covers

theorem WithFurther.uncovered_left (h : WithFurther ag ag' sdg sdg' aces l r view oid) :
    ∀ u ∈ l, ¬ u <+: oid := fun u hu => h.uncovered u (List.mem_append_left r hu)

theorem WithFurther.uncovered_right (h : WithFurther ag ag' sdg sdg' aces l r view oid) :
    ∀ u ∈ r, ¬ u <+: oid := fun u hu => h.uncovered u (List.mem_append_right l hu)

theorem WithFurther.exactShown_same (h : WithFurther ag ag' sdg sdg' aces l r view oid) :
    exactShown ag' oid = exactShown ag oid := by
  funext request arg len value st
  rw [exactShown, exactShown, h.handlers, h.root]

/-- `mib_set` of a principal whose views cover the OID. -/
theorem mibSet_eq_of_views {views : List Oid} (hnd : views.Nodup)
    (hp : principalViews ag.views sdg .write = some views) (hcov : viewCover views oid = true)
    (ret : OidSearchRes) :
    mibSet ag sdg oid ret =
      overViews (searchExact ag oid) (foundExact oid) oid views (authenStep sdg ret) := by
  simp only [mibSet, writeAccess, hp, hcov, if_true]
  exact viewLoop_eq_overViews _ _ oid hnd _

theorem overViews_alone (ag : Agent σ) (hcov : view <+: oid) (ret : OidSearchRes)
    (w : World Event σ) :
    (overViews (searchExact ag oid) (foundExact oid) oid [view] ret w).1.map OidSearchRes.shown =
      exactShown ag oid ret.request (argOf ret) ret.var.len ret.var.value w.state := by
  have h := overViews_lost ag (l := []) (r := []) (by simp) (by simp) hcov ret rfl w
  simpa [lost] using h

/-- **GET with further views.** The same is reported unless the outcome is lost, and even then
when it was noSuchObject anyway. -/
theorem WithFurther.reportGet_iff (h : WithFurther ag ag' sdg sdg' .read l r view oid)
    (hreq : ret.request = .get) (w : World Event σ) :
    reportGet ag sdg oid ret w = reportGet ag' sdg' oid ret w ↔
      lost oid l r (exactOutcome ag oid .get none w.state) = false ∨
        exactOutcome ag oid .get none w.state = (asn1TagNoSuchObj, 0) := by
  have harg : argOf (if l = [] then authenStep sdg ret else missed oid (authenStep sdg ret)) =
      none := by
    split <;> simp [argOf, missed, hreq]
  have harg' : argOf (authenStep sdg' ret) = none := by
    simp [argOf, hreq]
  rw [reportGet, reportGet, mibGet_eq h.nodup h.views, mibGet_eq (by simp) h.alone,
    overViews_alone _ h.covers, h.exactShown_same, harg',
    overViews_lost ag h.uncovered_left h.uncovered_right h.covers _ harg]
  simp only [authenStep_request, authenStep_var, hreq]
  by_cases hlost : lost oid l r (exactOutcome ag oid .get none w.state) = true
  · rw [if_pos hlost, bind_some, readReport_noSuchObj, eq_comm, readReport_noSuchObj_iff]
    simp [hlost]
  · rw [if_neg hlost]
    exact iff_of_true rfl (.inl (Bool.eq_false_iff.mpr hlost))

theorem WithFurther.reportSet_eq_iff (h : WithFurther ag ag' sdg sdg' .write l r view oid)
    (hreq : ret.request = .set) (w : World Event σ) :
    reportSet ag sdg oid ret w = reportSet ag' sdg' oid ret w ↔
      setReportOf ret.var (if lost oid l r (exactOutcome ag oid .set (setArg l ret.var) w.state)
          then (asn1TagNoSuchObj, 0) else exactOutcome ag oid .set (setArg l ret.var) w.state) =
        setReportOf ret.var (exactOutcome ag oid .set (luaPush ret.var) w.state) := by
  have harg : argOf (if l = [] then authenStep sdg ret else missed oid (authenStep sdg ret)) =
      setArg l ret.var := by
    rw [setArg]
    split
    · simp [argOf, hreq]
    · simp [argOf, missed, hreq]
      rfl
  have harg' : argOf (authenStep sdg' ret) = luaPush ret.var := by
    simp [argOf, hreq]
  have hcov : ∀ views : List Oid, view ∈ views → viewCover views oid = true := by
    intro views hmem
    rw [viewCover, List.any_eq_true]
    exact ⟨view, hmem, by simpa using (oidCover_pos_iff view oid).mpr h.covers⟩
  rw [reportSet, reportSet, mibSet_eq_of_views h.nodup h.views (hcov _ (by simp)),
    mibSet_eq_of_views (by simp) h.alone (hcov _ (by simp)), overViews_alone _ h.covers,
    h.exactShown_same, harg',
    overViews_lost ag h.uncovered_left h.uncovered_right h.covers _ harg]
  simp only [authenStep_request, authenStep_var, hreq]
  rw [exactShown_eq _ _ _ _ _ _ _ (.inl rfl), exactShown_eq _ _ _ _ _ _ _ (.inl rfl)]
  split <;> rfl

/-- When a SET is reported with further views as without, by the place of the view: when the OID is
ahead of an earlier view, the handler is not called; behind other views it is called without the
value; in the first place only what was not set can be lost. -/
def SetStands (ag : Agent σ) (oid : Oid) (l r : List Oid) (var : Variable) (st : σ) : Prop :=
  let alone := exactOutcome ag oid .set (luaPush var) st
  let bare := exactOutcome ag oid .set (some (.nil, asn1TagNoSuchObj)) st
  if l.any (fun u => oidCmp oid u < 0) then SetRefused var alone
  else if l = [] then r = [] ∨ isFound alone = true ∨ SetRefused var alone
  else if r = [] ∨ isFound bare = true then setReportOf var bare = setReportOf var alone
  else SetRefused var alone

/-- **SET with further views.** Here the handler may be called with another value as well. -/
theorem WithFurther.reportSet_iff (h : WithFurther ag ag' sdg sdg' .write l r view oid)
    (hreq : ret.request = .set) (w : World Event σ) :
    reportSet ag sdg oid ret w = reportSet ag' sdg' oid ret w ↔
      SetStands ag oid l r ret.var w.state := by
  rw [h.reportSet_eq_iff hreq w, SetStands]
  by_cases hahead : l.any (fun u => oidCmp oid u < 0) = true
  · have hlost : ∀ out, lost oid l r out = true := fun out => by simp [lost, hahead]
    rw [if_pos hahead, if_pos (hlost _), setReportOf_noSuchObj_iff]
  · have hlost : ∀ out, lost oid l r out = true ↔ ¬ (r = [] ∨ isFound out = true) := by
      intro out
      cases r <;> simp [lost, hahead]
    rw [if_neg hahead]
    by_cases hl : l = []
    · rw [if_pos hl, setArg, if_pos hl, ← or_assoc]
      by_cases hstands : r = [] ∨ isFound (exactOutcome ag oid .set (luaPush ret.var) w.state) = true
      · rw [if_neg ((hlost _).not.mpr (not_not.mpr hstands))]
        exact iff_of_true rfl (.inl hstands)
      · rw [if_pos ((hlost _).mpr hstands), setReportOf_noSuchObj_iff, or_iff_right hstands]
    · rw [if_neg hl, setArg, if_neg hl]
      split
      · next hl' =>
          rw [if_neg ((hlost _).mp hl'), setReportOf_noSuchObj_iff]
      · next hl' =>
          rw [if_pos (not_not.mp ((hlost _).not.mp hl'))]

/-- **Further views.** What is reported with them is what is reported without, for GET exactly when
the outcome of the covering view is not lost or was noSuchObject. For SET it depends on the place of
the view: when the handler is not called or its outcome is lost, it must refuse the value as not
writable; behind other views it must have the same reported without the value. -/
theorem furtherViews_report_iff (ret : OidSearchRes) (w : World Event σ) :
    (WithFurther ag ag' sdg sdg' .read l r view oid → ret.request = .get →
      (reportGet ag sdg oid ret w = reportGet ag' sdg' oid ret w ↔
        lost oid l r (exactOutcome ag oid .get none w.state) = false ∨
          exactOutcome ag oid .get none w.state = (asn1TagNoSuchObj, 0))) ∧
    (WithFurther ag ag' sdg sdg' .write l r view oid → ret.request = .set →
      (reportSet ag sdg oid ret w = reportSet ag' sdg' oid ret w ↔
        SetStands ag oid l r ret.var w.state)) :=
  ⟨fun h hreq => h.reportGet_iff hreq w, fun h hreq => h.reportSet_iff hreq w⟩

end

/-- Handlers that have no instances to read and take integers only. -/
def integerHandlers : Handlers Unit where
  call _ request s arg st :=
    match request, arg with
    | .set, some (.num _, _) => (.ret 0 s .nil asn1TagInt, st)
    | .set, _ => (.ret snmpErrStatWrongType s .nil asn1TagInt, st)
    | _, _ => (.ret 0 s .nil asn1TagNoSuchInst, st)

/-- An agent with objects at `1` and `2`, and a community with write access to `views`. -/
def integerAgent (views : List Oid) : Agent Unit where
  handlers := integerHandlers
  root := .group [(1, .inst 0), (2, .inst 1)]
  views := views.foldl (fun s view => mibCommunityReg s view [0x70] .write) {}

/-- A datagram of the community. -/
def integerRequest : SnmpDatagram where
  contextName := [0x70]

/-- A SET of the integer seven. -/
def integerSet : OidSearchRes where
  request := .set
  var := { tag := asn1TagInt, len := 1, value := [7, 0, 0, 0] }

/-- The view `2` beside the view `1`. -/
theorem integerAgent_withFurther (aces : MibAces) :
    WithFurther (integerAgent [[1], [2]]) (integerAgent [[1]]) integerRequest integerRequest aces
      [] [[2]] [1] [1, 5] where
  handlers := rfl
  root := rfl
  views := by cases aces <;> decide
  alone := by cases aces <;> decide
  nodup := by decide
  disjoint := by simp [Incomparable]
  covers := by decide

/-- The further view hides a missing instance, but not a value that was set. -/
theorem integerAgent_reports :
    reportGet (integerAgent [[1], [2]]) integerRequest [1, 5] { request := .get } ⟨(), []⟩ ≠
        reportGet (integerAgent [[1]]) integerRequest [1, 5] { request := .get } ⟨(), []⟩ ∧
      reportSet (integerAgent [[1], [2]]) integerRequest [1, 5] integerSet ⟨(), []⟩ =
        reportSet (integerAgent [[1]]) integerRequest [1, 5] integerSet ⟨(), []⟩ := by
  constructor
  · rw [Ne, (furtherViews_report_iff { request := .get } ⟨(), []⟩).1
      (integerAgent_withFurther .read) rfl]
    decide
  · rw [(furtherViews_report_iff integerSet ⟨(), []⟩).2 (integerAgent_withFurther .write) rfl]
    -- the view is the first one, and the value is set
    exact .inr (.inl (by decide))

/-- **Further views change answers.** A missing instance below `1` is reported as noSuchInstance
with the view `1` alone and as noSuchObject with the views `1` and `2`. An integer is set below `2`
with the view `2` alone, and is of a wrong type with both. -/
theorem furtherViews_change_answers :
    (reportGet (integerAgent [[1]]) integerRequest [1, 5] { request := .get } ⟨(), []⟩ =
        some (asn1TagNoSuchInst, [], 0) ∧
      reportGet (integerAgent [[1], [2]]) integerRequest [1, 5] { request := .get } ⟨(), []⟩ =
        some (asn1TagNoSuchObj, [], 0)) ∧
    (reportSet (integerAgent [[2]]) integerRequest [2, 5] integerSet ⟨(), []⟩ = some ([7], 0) ∧
      reportSet (integerAgent [[1], [2]]) integerRequest [2, 5] integerSet ⟨(), []⟩ =
        some ([7], snmpErrStatWrongType)) := by
  decide

end SmithSnmp
