import SmithSnmp.Ber
import SmithSnmp.MibSearch

/-!
# Request Processing

`core/snmp_msg_proc.c` and the dispatcher of `core/snmp_msg_in.c`: for every varbind of a
request the views of the principal are searched, and the result is added to the response.
Both `err_stat` and the variable of the search result stay in `ret_oid` from one varbind
to the next.

A run that does not come to an end (`ber_oid_enc_try` on more than 255 sub-identifiers,
`ber_int_dec` on a negative number of more than four octets) is an abort like a failed
assertion: no response is built. `snmp_response` itself belongs to the encoder;
`snmpRequestDispatch` yields the datagram on which it is called, if any.

The varbinds of the response are allocated with the size that `ber_value_enc_try` gives for
their values; it is kept with them, since it can be less than what `ber_value_enc` writes.
-/

namespace SmithSnmp

open Lib

variable {σ : Type}

/-- What the request processors work on: the handlers, the MIB tree and the principals. -/
structure Agent (σ : Type) where
  handlers : Handlers σ
  root : MibNode
  views : ViewState

/-! ### Principals -/

/-- The views of a user. -/
def MibUser.viewsOf (u : MibUser) : MibAces → List Oid
  | .read => u.roViews
  | .write => u.rwViews

/-- The views of a community. -/
def MibCommunity.viewsOf (c : MibCommunity) : MibAces → List Oid
  | .read => c.roViews
  | .write => c.rwViews

/-- The views of the user or the community of a datagram, `none` when it is not
registered. -/
def principalViews (views : ViewState) (sdg : SnmpDatagram) (aces : MibAces) :
    Option (List Oid) :=
  if 3 ≤ sdg.version then sdg.user.map (·.viewsOf aces)
  else (mibCommunitySearch views.communities (cString sdg.contextName)).map (·.viewsOf aces)

/-- The authentication step: the error of an authenticated message of a known user. -/
def authenStep (sdg : SnmpDatagram) (ret : OidSearchRes) : OidSearchRes :=
  if 3 ≤ sdg.version ∧ sdg.hasFlag snmpSecurFlagAuth = true then
    { ret with errStat := sdg.authErr.toUInt32.toInt32 }
  else ret

/-- Access control of `mib_get` and `mib_getnext`: the views to traverse. -/
def readAccess (ag : Agent σ) (sdg : SnmpDatagram) (ret : OidSearchRes) :
    List Oid × OidSearchRes :=
  match principalViews ag.views sdg .read with
  | none => ([], { ret with errStat := snmpErrStatNoAccess })
  | some views => (views, authenStep sdg ret)

/-- Access control of `mib_set`: a principal whose write views do not cover the OID is
treated as an unknown one. -/
def writeAccess (ag : Agent σ) (sdg : SnmpDatagram) (oid : Oid) (ret : OidSearchRes) :
    List Oid × OidSearchRes :=
  match principalViews ag.views sdg .write with
  | none => ([], { ret with errStat := snmpErrStatNoAccess })
  | some views =>
    if viewCover views oid then (views, authenStep sdg ret)
    else ([], { ret with errStat := snmpErrStatNoAccess })

/-! ### The loop over the views -/

/-- The loop of `mib_get`, `mib_getnext` and `mib_set` from the view after `view` on: search
a view, and stop there when the result is `found`. -/
def viewLoop (search : Oid → OidSearchRes → AgentM σ OidSearchRes)
    (found : Oid → OidSearchRes → Bool) (views : List Oid) (oid : Oid) :
    ℕ → Option Oid → OidSearchRes → AgentM σ OidSearchRes
  | 0, _, _ => Traced.abort
  | fuel + 1, view, ret =>
    match nextView views view with
    -- duplicate the original OID when the result is not found
    | none => pure { ret with oid := oid }
    | some view => do
        let ret ← search view ret
        if found view ret then pure ret
        else viewLoop search found views oid fuel (some view) ret

/-- The search of `mib_get` and `mib_set` in one view. -/
def searchExact (ag : Agent σ) (oid view : Oid) (ret : OidSearchRes) :
    AgentM σ OidSearchRes := do
  let (_, ret) ← mibTreeSearch ag.handlers ag.root view oid ret
  pure ret

/-- Where `mib_get` and `mib_set` stop: gotcha, or the given OID is ahead of all views. -/
def foundExact (oid view : Oid) (ret : OidSearchRes) : Bool :=
  (ret.errStat = 0 && asn1TagValid ret.var.tag) || oidCmp oid view < 0

/-- The search of `mib_getnext` in one view. -/
def searchNext (ag : Agent σ) (oid view : Oid) (ret : OidSearchRes) : AgentM σ OidSearchRes :=
  mibTreeSearchNext ag.handlers ag.root view oid ret

/-- Where `mib_getnext` stops. -/
def foundNext (_ : Oid) (ret : OidSearchRes) : Bool := ret.var.tag ≠ asn1TagEndOfMibView

/-- `mib_get` -/
def mibGet (ag : Agent σ) (sdg : SnmpDatagram) (oid : Oid) (ret : OidSearchRes) :
    AgentM σ OidSearchRes :=
  let (views, ret) := readAccess ag sdg ret
  viewLoop (searchExact ag oid) (foundExact oid) views oid (views.length + 1) none ret

/-- `mib_getnext` -/
def mibGetnext (ag : Agent σ) (sdg : SnmpDatagram) (oid : Oid) (ret : OidSearchRes) :
    AgentM σ OidSearchRes :=
  let (views, ret) := readAccess ag sdg ret
  viewLoop (searchNext ag oid) foundNext views oid (views.length + 1) none ret

/-- `mib_set` -/
def mibSet (ag : Agent σ) (sdg : SnmpDatagram) (oid : Oid) (ret : OidSearchRes) :
    AgentM σ OidSearchRes :=
  let (views, ret) := writeAccess ag sdg oid ret
  viewLoop (searchExact ag oid) (foundExact oid) views oid (views.length + 1) none ret

/-! ### Varbinds of the response -/

/-- The search result with the decoded value of a varbind. -/
def OidSearchRes.load (ret : OidSearchRes) (vb : VarBind) (dec : ℕ × List UInt8) :
    OidSearchRes :=
  { ret with
    var := { ret.var with
      tag := vb.valueType
      len := UInt16.ofNat dec.1
      value := pokeBytes ret.var.value dec.2 } }

/-- The value of a varbind of the request is decoded into the variable first. -/
def loadValue (vb : VarBind) (ret : OidSearchRes) : AgentM σ OidSearchRes :=
  match berValueDec vb.value vb.valueType with
  | none => Traced.abort
  | some dec => pure (ret.load vb dec)

/-- The number of elements that the value of a varbind is decoded to. -/
def valueLen (vb : VarBind) : ℕ :=
  (UInt16.ofNat (((berValueDec vb.value vb.valueType).map Prod.fst).getD 0)).toNat

theorem load_len {vb : VarBind} {dec : ℕ × List UInt8}
    (h : berValueDec vb.value vb.valueType = some dec) (ret : OidSearchRes) :
    (ret.load vb dec).var.len.toNat = valueLen vb := by
  rw [valueLen, h]
  rfl

/-- The value of the varbind is never decoded. -/
def VarBind.Stuck (vb : VarBind) : Prop :=
  (vb.valueType = asn1TagInt ∨ vb.valueType = asn1TagCnt) ∧ RunsAway vb.value

instance VarBind.decidableStuck (vb : VarBind) : Decidable vb.Stuck :=
  inferInstanceAs (Decidable (_ ∧ _))

theorem loadValue_of_dec {vb : VarBind} {dec : ℕ × List UInt8}
    (h : berValueDec vb.value vb.valueType = some dec) (ret : OidSearchRes) :
    (loadValue vb ret : AgentM σ OidSearchRes) = pure (ret.load vb dec) := by
  rw [loadValue, h]

/-- The loops over the varbinds come to an end with such a varbind, or they go on with its value. -/
theorem loadValue_bind {α : Type} (vb : VarBind) (ret : OidSearchRes)
    (f : OidSearchRes → AgentM σ α) :
    vb.Stuck ∧ (loadValue vb ret >>= f) = Traced.abort ∨
      ¬ vb.Stuck ∧ ∃ dec, berValueDec vb.value vb.valueType = some dec ∧
        (loadValue vb ret >>= f) = f (ret.load vb dec) := by
  have hstuck := berValueDec_eq_none_iff vb.value vb.valueType
  rcases hdec : berValueDec vb.value vb.valueType with _ | dec
  · refine .inl ⟨hstuck.mp hdec, ?_⟩
    rw [loadValue, hdec]
    rfl
  · refine .inr ⟨fun h => ?_, dec, rfl, ?_⟩
    · rw [hstuck.mpr h] at hdec
      cases hdec
    · rw [loadValue_of_dec hdec, Traced.pure_bind]

/-- The first error and the index of its varbind are reported. -/
def reportError (errStat : Int32) (vbInCnt : UInt32) (hdr : PduHdr) : PduHdr :=
  if errStat ≠ 0 ∧ hdr.errStat = 0 then
    { hdr with errStat := errStat, errIdx := vbInCnt.toInt32 }
  else hdr

/-- The length of a tag, a length and a content of `len` octets. -/
def tlvLen (len : UInt32) : UInt32 := 1 + UInt32.ofNat (berLengthEncTry len) + len

/-- Length encoding of a varbind and its addition to the response. -/
def addVarBind (sdg : SnmpDatagram) (oid : Oid) (type : UInt8) (value : List UInt8) (room : ℕ) :
    Option (SnmpDatagram × VarBind) :=
  (berOidEncTry oid).map fun oidLen =>
    let vb : VarBind := {
      oid := oid
      vbLen := tlvLen (UInt32.ofNat oidLen) + tlvLen (UInt32.ofNat value.length)
      valueType := type
      value := value
      room := room }
    ({ sdg with
        vbListLen := sdg.vbListLen + tlvLen vb.vbLen
        vbOutList := sdg.vbOutList ++ [vb] }, vb)

/-- The part of the request processors after the value is encoded: an error is reported, and
the varbind is added. -/
def answer (sdg : SnmpDatagram) (vbInCnt : UInt32) (type : UInt8) (value : List UInt8) (room : ℕ)
    (ret : OidSearchRes) : AgentM σ SnmpDatagram :=
  let sdg := { sdg with pduHdr := reportError ret.errStat vbInCnt sdg.pduHdr }
  match addVarBind sdg ret.oid type value room with
  | none => Traced.abort
  | some (sdg, vb) => do
      Traced.emit (.out vb (if asn1TagValid ret.var.tag = true then ret.var.src else none))
      pure sdg

/-- The value of a read, encoded after its search. -/
def answerRead (sdg : SnmpDatagram) (vbInCnt : UInt32) (ret : OidSearchRes) :
    AgentM σ SnmpDatagram :=
  match berValueEncTry ret.var.value ret.var.len.toNat ret.var.tag with
  | none => Traced.abort
  | some valLen =>
    answer sdg vbInCnt ret.var.tag
      (berValueEnc ret.var.value ret.var.len.toNat ret.var.tag) valLen ret

/-- The answer of a SET: the type of the request stays, the encoder is called with the
encoded length as the number of elements, and an invalid tag becomes an error status. -/
def answerSet (sdg : SnmpDatagram) (vb : VarBind) (vbInCnt : UInt32) (ret : OidSearchRes) :
    AgentM σ (SnmpDatagram × OidSearchRes) :=
  match berValueEncTry ret.var.value ret.var.len.toNat ret.var.tag with
  | none => Traced.abort
  | some valLen => do
      let value := berValueEnc ret.var.value valLen ret.var.tag
      let ret :=
        if ret.errStat = 0 ∧ asn1TagValid ret.var.tag = false then
          { ret with errStat := snmpErrStatNotWritable }
        else ret
      let sdg ← answer sdg vbInCnt vb.valueType value valLen ret
      pure (sdg, ret)

/-! ### Requests -/

/-- The loop of `snmp_get` and `snmp_getnext` over the varbinds, with the search `find`. -/
def readLoop (find : SnmpDatagram → Oid → OidSearchRes → AgentM σ OidSearchRes) :
    List VarBind → UInt32 → SnmpDatagram → OidSearchRes → AgentM σ SnmpDatagram
  | [], _, sdg, _ => pure sdg
  | vb :: vbs, vbInCnt, sdg, ret => do
      let ret ← loadValue vb ret
      let ret ← find sdg vb.oid ret
      let sdg ← answerRead sdg (vbInCnt + 1) ret
      readLoop find vbs (vbInCnt + 1) sdg ret

/-- `snmp_get` -/
def snmpGet (ag : Agent σ) (sdg : SnmpDatagram) : AgentM σ SnmpDatagram :=
  readLoop (mibGet ag) sdg.vbInList 0 sdg { request := .get }

/-- `snmp_getnext` -/
def snmpGetnext (ag : Agent σ) (sdg : SnmpDatagram) : AgentM σ SnmpDatagram :=
  readLoop (mibGetnext ag) sdg.vbInList 0 sdg { request := .getnext }

/-- The loop of `snmp_set` over the varbinds. -/
def snmpSetLoop (ag : Agent σ) :
    List VarBind → UInt32 → SnmpDatagram → OidSearchRes → AgentM σ SnmpDatagram
  | [], _, sdg, _ => pure sdg
  | vb :: vbs, vbInCnt, sdg, ret => do
      let ret ← loadValue vb ret
      let ret ← mibSet ag sdg vb.oid ret
      let (sdg, ret) ← answerSet sdg vb (vbInCnt + 1) ret
      snmpSetLoop ag vbs (vbInCnt + 1) sdg ret

/-- `snmp_set` -/
def snmpSet (ag : Agent σ) (sdg : SnmpDatagram) : AgentM σ SnmpDatagram :=
  snmpSetLoop ag sdg.vbInList 0 sdg { request := .set }

/-- What the loops of `snmp_bulkget` carry along: the varbinds of the request with the
OIDs to ask for next, the counter, the datagram and the search result. -/
structure BulkState where
  vbs : List VarBind
  vbInCnt : UInt32 := 0
  sdg : SnmpDatagram
  ret : OidSearchRes

/-- The inner loop of `snmp_bulkget`; `done` collects the varbinds with their new OIDs. -/
def snmpBulkgetRow (ag : Agent σ) (done : List VarBind) :
    List VarBind → BulkState → AgentM σ BulkState
  | [], st => pure { st with vbs := done }
  | vb :: vbs, st => do
      let ret ← loadValue vb st.ret
      let ret ← mibGetnext ag st.sdg vb.oid ret
      let sdg ← answerRead st.sdg (st.vbInCnt + 1) ret
      -- return OID for the next query
      snmpBulkgetRow ag (done ++ [{ vb with oid := ret.oid }]) vbs
        { st with vbInCnt := st.vbInCnt + 1, sdg := sdg, ret := ret }

/-- The outer loop of `snmp_bulkget`. -/
def snmpBulkgetLoop (ag : Agent σ) : ℕ → BulkState → AgentM σ BulkState
  | 0, st => pure st
  | repeats + 1, st => do
      let st ← snmpBulkgetRow ag [] st.vbs st
      snmpBulkgetLoop ag repeats st

/-- `snmp_bulkget` -/
def snmpBulkget (ag : Agent σ) (sdg : SnmpDatagram) : AgentM σ SnmpDatagram := do
  let repeats := sdg.pduHdr.errIdx.toUInt32.toNat
  let sdg := { sdg with pduHdr := { sdg.pduHdr with errIdx := 0 } }
  let st ← snmpBulkgetLoop ag repeats
    { vbs := sdg.vbInList, sdg := sdg, ret := { request := .getnext } }
  pure { st.sdg with vbInList := st.vbs }

/-- The PDU type of the answer: a report when there are no varbinds. -/
def markResponse (sdg : SnmpDatagram) : SnmpDatagram :=
  let resp := if sdg.vbInList.length = 0 then snmpRepo else snmpResp
  { sdg with pduHdr := { sdg.pduHdr with pduType := resp } }

/-- `snmp_request_dispatch`: the datagram that `snmp_response` gets, `none` for the PDU
types that are not answered. -/
def snmpRequestDispatch (ag : Agent σ) (sdg : SnmpDatagram) :
    AgentM σ (Option SnmpDatagram) :=
  let pduType := sdg.pduHdr.pduType
  let sdg := markResponse sdg
  if pduType = snmpReqGet then some <$> snmpGet ag sdg
  else if pduType = snmpReqGetnext then some <$> snmpGetnext ag sdg
  else if pduType = snmpReqSet then some <$> snmpSet ag sdg
  else if pduType = snmpReqBulkget then some <$> snmpBulkget ag sdg
  else pure none

end SmithSnmp
