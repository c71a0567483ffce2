import SmithSnmp.Oid

/-!
# ASN.1 Tags and Variables

The constants of `core/asn1.h` and the tag-length-value `Variable` that carries a value
between the message codec, the request processors and the MIB handlers.

The value of a `Variable` is a C union, so an integer can be read from memory that was
written as an octet string. It is kept as the bytes of the union in little-endian order;
what lies behind the listed bytes is zero. The field `src` is a ghost: it records the OID
for which a MIB handler supplied the bytes, and no modelled function branches on it.
-/

namespace SmithSnmp

/-! ### Constants -/

/-- `ASN1_VALUE_MAX_LEN` -/
def asn1ValueMaxLen : ℕ := 1024

/-- `ASN1_TAG_BOOL` -/
def asn1TagBool : UInt8 := 0x01
/-- `ASN1_TAG_INT` -/
def asn1TagInt : UInt8 := 0x02
/-- `ASN1_TAG_BITSTR` -/
def asn1TagBitstr : UInt8 := 0x03
/-- `ASN1_TAG_OCTSTR` -/
def asn1TagOctstr : UInt8 := 0x04
/-- `ASN1_TAG_NUL` -/
def asn1TagNul : UInt8 := 0x05
/-- `ASN1_TAG_OBJID` -/
def asn1TagObjid : UInt8 := 0x06
/-- `ASN1_TAG_SEQ` -/
def asn1TagSeq : UInt8 := 0x30
/-- `ASN1_TAG_IPADDR` -/
def asn1TagIpaddr : UInt8 := 0x40
/-- `ASN1_TAG_CNT` -/
def asn1TagCnt : UInt8 := 0x41
/-- `ASN1_TAG_GAU` -/
def asn1TagGau : UInt8 := 0x42
/-- `ASN1_TAG_TIMETICKS` -/
def asn1TagTimeticks : UInt8 := 0x43
/-- `ASN1_TAG_OPAQ` -/
def asn1TagOpaq : UInt8 := 0x44
/-- `ASN1_TAG_CNT64` -/
def asn1TagCnt64 : UInt8 := 0x46
/-- `ASN1_TAG_NO_SUCH_OBJ` -/
def asn1TagNoSuchObj : UInt8 := 0x80
/-- `ASN1_TAG_NO_SUCH_INST` -/
def asn1TagNoSuchInst : UInt8 := 0x81
/-- `ASN1_TAG_END_OF_MIB_VIEW` -/
def asn1TagEndOfMibView : UInt8 := 0x82

/-- `ASN1_TAG_VALID` -/
def asn1TagValid (tag : UInt8) : Bool := tag < asn1TagNoSuchObj

/-- The tags whose values `mib_instance_search` can copy from a handler; any other valid
tag runs into `assert(0)` there. -/
def asn1TagCopied (tag : UInt8) : Bool :=
  tag = asn1TagInt || tag = asn1TagOctstr || tag = asn1TagCnt || tag = asn1TagIpaddr ||
    tag = asn1TagObjid || tag = asn1TagGau || tag = asn1TagTimeticks

/-- `enum snmp_request` -/
def snmpReqGet : UInt8 := 0xA0
/-- `SNMP_REQ_GETNEXT` -/
def snmpReqGetnext : UInt8 := 0xA1
/-- `SNMP_RESP` -/
def snmpResp : UInt8 := 0xA2
/-- `SNMP_REQ_SET` -/
def snmpReqSet : UInt8 := 0xA3
/-- `SNMP_REQ_BULKGET` -/
def snmpReqBulkget : UInt8 := 0xA5
/-- `SNMP_REPO` -/
def snmpRepo : UInt8 := 0xA8

/-- `SNMP_ERR_STAT_GEN_ERR` -/
def snmpErrStatGenErr : Int32 := 5
/-- `SNMP_ERR_STAT_NO_ACCESS` -/
def snmpErrStatNoAccess : Int32 := 6
/-- `SNMP_ERR_STAT_WRONG_TYPE` -/
def snmpErrStatWrongType : Int32 := 7
/-- `SNMP_ERR_STAT_AUTHORIZATION` -/
def snmpErrStatAuthorization : Int32 := 16
/-- `SNMP_ERR_STAT_NOT_WRITABLE` -/
def snmpErrStatNotWritable : Int32 := 17

/-! ### The union of a variable -/

/-- The bytes of a 32-bit number in memory, least significant first. -/
def leBytes (v : UInt32) : List UInt8 :=
  [v.toUInt8, (v >>> 8).toUInt8, (v >>> 16).toUInt8, (v >>> 24).toUInt8]

/-- The 32-bit number at the start of some memory, zero behind its end. -/
def peekWord (mem : List UInt8) : UInt32 :=
  (mem.getD 0 0).toUInt32 ||| ((mem.getD 1 0).toUInt32 <<< 8) |||
    ((mem.getD 2 0).toUInt32 <<< 16) ||| ((mem.getD 3 0).toUInt32 <<< 24)

/-- The first `n` bytes of some memory, zero behind its end. -/
def peekBytes (mem : List UInt8) (n : ℕ) : List UInt8 :=
  mem.take n ++ List.replicate (n - mem.length) 0

theorem peekBytes_length (mem : List UInt8) (n : ℕ) : (peekBytes mem n).length = n := by
  simp only [peekBytes, List.length_append, List.length_take, List.length_replicate]
  omega

/-- The first `n` sub-identifiers of an OID in memory. -/
def peekOid (mem : List UInt8) : ℕ → Oid
  | 0 => []
  | n + 1 => peekWord mem :: peekOid (mem.drop 4) n

@[simp] theorem length_peekOid (mem : List UInt8) (n : ℕ) : (peekOid mem n).length = n := by
  induction n generalizing mem with
  | zero => rfl
  | succ n ih => simp [peekOid, ih]

/-- `Variable` -/
structure Variable where
  tag : UInt8 := 0
  /-- number of elements according to the tag -/
  len : UInt16 := 0
  /-- the bytes of the union -/
  value : List UInt8 := []
  /-- ghost: the OID whose handler supplied the value -/
  src : Option Oid := none
deriving DecidableEq, Repr

/-- Bytes written over the start of some memory. -/
def pokeBytes (mem bs : List UInt8) : List UInt8 := bs ++ mem.drop bs.length

end SmithSnmp
