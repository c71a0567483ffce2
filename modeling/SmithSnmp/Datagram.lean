import SmithSnmp.MibView

/-!
# The SNMP Datagram

`struct snmp_datagram` of `core/snmp.h`, with its PDU header and variable bindings. An
array with its length is a list, so `recv_len`, `user_name_len` and the like are lengths of
lists; the lengths of integers, which the source keeps beside their values and echoes in
the response, are fields. `msg_flags` is one octet in the source; its list holds the
octets that were copied to it.
-/

namespace SmithSnmp

/-- `struct var_bind` -/
structure VarBind where
  oid : Oid
  /-- length of the encoded binding, set for responses -/
  vbLen : UInt32 := 0
  valueType : UInt8
  value : List UInt8
  /-- octets that are allocated for the value -/
  room : ℕ := value.length
deriving DecidableEq, Repr

/-- `struct pdu_hdr` -/
structure PduHdr where
  pduType : UInt8 := 0
  pduLen : UInt32 := 0
  reqIdLen : UInt32 := 0
  reqId : Int32 := 0
  errStatLen : UInt32 := 0
  /-- error status, or the non-repeaters of a GETBULK request -/
  errStat : Int32 := 0
  errIdxLen : UInt32 := 0
  /-- error index, or the max-repetitions of a GETBULK request -/
  errIdx : Int32 := 0
deriving DecidableEq, Repr

/-- `struct snmp_datagram` -/
structure SnmpDatagram where
  recvBuf : List UInt8 := []
  dataLen : UInt32 := 0
  version : Int32 := 0
  verLen : UInt32 := 0
  msgLen : UInt32 := 0
  msgId : Int32 := 0
  msgIdLen : UInt32 := 0
  msgMaxSize : Int32 := 0
  msgSizeLen : UInt32 := 0
  msgFlags : List UInt8 := []
  msgSecurityModel : Int32 := 0
  msgModelLen : UInt32 := 0
  securStrLen : UInt32 := 0
  securParaLen : UInt32 := 0
  engineId : List UInt8 := []
  engineBoots : Int32 := 0
  engineBootsLen : UInt32 := 0
  engineTime : Int32 := 0
  engineTimeLen : UInt32 := 0
  userName : List UInt8 := []
  /-- the user of that name -/
  user : Option MibUser := none
  /-- outcome of the authentication, zero for none or success -/
  authErr : UInt8 := 0
  authPara : List UInt8 := []
  privPara : List UInt8 := []
  scopeLen : UInt32 := 0
  contextId : List UInt8 := []
  /-- context name, or the community of SNMPv1 and SNMPv2c -/
  contextName : List UInt8 := []
  pduHdr : PduHdr := {}
  vbListLen : UInt32 := 0
  vbInList : List VarBind := []
  vbOutList : List VarBind := []
deriving DecidableEq, Repr

/-- `SNMP_SECUR_FLAG_AUTH` -/
def snmpSecurFlagAuth : UInt8 := 0x1
/-- `SNMP_SECUR_FLAG_ENCRYPT` -/
def snmpSecurFlagEncrypt : UInt8 := 0x2

/-- `sdg->msg_flags & flag` -/
def SnmpDatagram.hasFlag (sdg : SnmpDatagram) (flag : UInt8) : Bool :=
  sdg.msgFlags.headD 0 &&& flag ≠ 0

/-- The values of the response lie in the memory that was allocated for them. -/
def SnmpDatagram.InRoom (sdg : SnmpDatagram) : Prop :=
  ∀ vb ∈ sdg.vbOutList, vb.value.length ≤ vb.room

instance SnmpDatagram.decidableInRoom (sdg : SnmpDatagram) : Decidable sdg.InRoom :=
  inferInstanceAs (Decidable (∀ _ ∈ _, _))

end SmithSnmp
