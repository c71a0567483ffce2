import SmithSnmp.AgentxOut
import SmithSnmp.MibSearch

/-!
# Processing AgentX Requests

The request processors of `core/agentx_msg_proc.c` and the dispatcher of
`core/agentx_msg_in.c`. There is no access control in a sub-agent: every search goes through
the view `1.3.6.1`. A TestSet is processed like a SET of SNMP, and CommitSet, UndoSet and
CleanupSet are answered at once.

One `oid_search_res` goes through all search ranges or varbinds of a request.
-/

namespace SmithSnmp

open Lib

variable {σ : Type}

/-- `agentx_dummy_view` -/
def agentxDummyView : Oid := [1, 3, 6, 1]

/-- `AGENTX_ERR_STAT_NOT_WRITABLE` -/
def agentxErrStatNotWritable : Int32 := 17

/-! ### Values -/

/-- `agentx_value_enc_try` -/
def agentxValueEncTry (len : UInt32) (type : UInt8) : UInt32 :=
  match valueLayout type.toUInt16 with
  | .word => 4
  | .long => 8
  | .objid => len * 4
  | .string => len
  | .none => 0

/-- `agentx_value_enc`: the bytes that are copied; their number is returned. -/
def agentxValueEnc (value : List UInt8) (len : UInt32) (type : UInt8) : List UInt8 :=
  peekBytes value (agentxValueEncTry len type).toNat

/-- A varbind of the answer. -/
def xVarBindOut (oid : Oid) (type : UInt16) (value : List UInt8) : XVarBind where
  oid := oid
  valType := type
  valLen := UInt32.ofNat value.length
  value := value

/-- The first error and the index of its search range or varbind are reported. -/
def reportXError (errStat : Int32) (cnt : UInt32) (xdg : AgentxDatagram) : AgentxDatagram :=
  if errStat ≠ 0 ∧ xdg.error = 0 then
    { xdg with error := errStat.toUInt32.toUInt16, index := cnt.toUInt16 }
  else xdg

/-- A varbind is added to the answer. -/
def AgentxDatagram.addOut (xdg : AgentxDatagram) (vb : XVarBind) : AgentxDatagram :=
  { xdg with vbOutList := xdg.vbOutList ++ [vb] }

/-! ### Get and GetNext -/

variable (h : Handlers σ) (root : MibNode)

/-- `mib_get` -/
def xMibGet (sr : XSearchRange) (ret : OidSearchRes) : AgentM σ OidSearchRes :=
  Prod.snd <$> mibTreeSearch h root agentxDummyView sr.start ret

/-- The query at the start of the range failed. -/
def invalidQuery (ret : OidSearchRes) : Bool := ret.errStat ≠ 0 || !asn1TagValid ret.var.tag

/-- The answer is behind the end of the range. -/
def exceedsEnd (sr : XSearchRange) (ret : OidSearchRes) : Bool :=
  (sr.endInclude ≠ 0 && 0 < oidCmp ret.oid sr.stop) ||
    (sr.endInclude = 0 && 0 ≤ oidCmp ret.oid sr.stop)

/-- The search behind the start of the range. -/
def xMibSearchNext (sr : XSearchRange) (ret : OidSearchRes) : AgentM σ OidSearchRes := do
  let ret ← mibTreeSearchNext h root agentxDummyView sr.start ret
  if !invalidQuery ret && exceedsEnd sr ret then pure (endOfMibView sr.start ret) else pure ret

/-- The OID that `mib_instance_search` leaves for GETNEXT: the instance `instId` is written over
the instance part `rest` of `orig`, and the length of the OID stays. -/
def writtenOver (orig rest instId : Oid) : Oid :=
  orig.take (orig.length - rest.length) ++ (instId ++ rest.drop instId.length).take rest.length

/-- `mib_getnext` -/
def xMibGetnext (sr : XSearchRange) (ret : OidSearchRes) : AgentM σ OidSearchRes :=
  if sr.startInclude ≠ 0 then do
    -- the handler is called with the request GETNEXT here, too
    let ret ← Prod.snd <$> mibTreeSearch h root agentxDummyView sr.start ret
    if invalidQuery ret then xMibSearchNext h root sr ret
    else pure { ret with oid := writtenOver sr.start (mibTreeWalk sr.start root).2 ret.instId }
  else xMibSearchNext h root sr ret

/-- The loop of `agentx_get` and `agentx_getnext` over the search ranges. -/
def xReadLoop (find : XSearchRange → OidSearchRes → AgentM σ OidSearchRes) :
    List XSearchRange → UInt32 → AgentxDatagram → OidSearchRes → AgentM σ AgentxDatagram
  | [], _, xdg, _ => pure xdg
  | sr :: srs, cnt, xdg, ret => do
      let ret ← find sr ret
      let value := agentxValueEnc ret.var.value ret.var.len.toUInt32 ret.var.tag
      let xdg := (reportXError ret.errStat (cnt + 1) xdg).addOut
        (xVarBindOut ret.oid ret.var.tag.toUInt16 value)
      xReadLoop find srs (cnt + 1) xdg ret

/-- `agentx_get` -/
def agentxGet (xdg : AgentxDatagram) : AgentM σ AgentxDatagram :=
  xReadLoop (xMibGet h root) xdg.srInList 0 xdg { request := .get }

/-- `agentx_getnext` -/
def agentxGetnext (xdg : AgentxDatagram) : AgentM σ AgentxDatagram :=
  xReadLoop (xMibGetnext h root) xdg.srInList 0 xdg { request := .getnext }

/-! ### TestSet -/

/-- The value of a varbind is put into the variable first. -/
def loadXValue (vb : XVarBind) (ret : OidSearchRes) : OidSearchRes :=
  let tag := vb.valType.toUInt8
  let len := vb.valLen.toUInt16
  { ret with
    var := { ret.var with
      tag := tag
      len := len
      value := pokeBytes ret.var.value
        (peekBytes vb.value (agentxValueEncTry len.toUInt32 tag).toNat) } }

/-- An invalid tag becomes an error status. -/
def notWritable (ret : OidSearchRes) : OidSearchRes :=
  if ret.errStat = 0 ∧ asn1TagValid ret.var.tag = false then
    { ret with errStat := agentxErrStatNotWritable }
  else ret

/-- `mib_set` -/
def xMibSet (vb : XVarBind) (ret : OidSearchRes) : AgentM σ OidSearchRes :=
  Prod.snd <$> mibTreeSearch h root agentxDummyView vb.oid ret

/-- The loop of `agentx_set` over the varbinds; the value is encoded with the number of its
bytes as the number of its elements. -/
def agentxSetLoop :
    List XVarBind → UInt32 → AgentxDatagram → OidSearchRes → AgentM σ AgentxDatagram
  | [], _, xdg, _ => pure xdg
  | vb :: vbs, cnt, xdg, ret => do
      let ret ← xMibSet h root vb (loadXValue vb ret)
      let valLen := agentxValueEncTry ret.var.len.toUInt32 ret.var.tag
      let vbOut := xVarBindOut ret.oid vb.valType (agentxValueEnc ret.var.value valLen ret.var.tag)
      let ret := notWritable ret
      agentxSetLoop vbs (cnt + 1) ((reportXError ret.errStat (cnt + 1) xdg).addOut vbOut) ret

/-- `agentx_set` -/
def agentxSet (xdg : AgentxDatagram) : AgentM σ AgentxDatagram :=
  agentxSetLoop h root xdg.vbInList 0 xdg { request := .set }

/-! ### The dispatcher -/

/-- `agentx_request_dispatch`: the datagram from which the response is made, `none` for the
PDU types that are not answered. -/
def agentxRequestDispatch (xdg : AgentxDatagram) : AgentM σ (Option AgentxDatagram) :=
  let type := xdg.pduHdr.type
  if type = agentxPduGet then some <$> agentxGet h root xdg
  else if type = agentxPduGetnext ∨ type = agentxPduGetbulk then some <$> agentxGetnext h root xdg
  else if type = agentxPduTestset then some <$> agentxSet h root xdg
  else if type = agentxPduCommitset ∨ type = agentxPduUndoset ∨ type = agentxPduCleanupset then
    pure (some xdg)
  else pure none

end SmithSnmp
