import SmithSnmp.Words
import SmithSnmp.Lib.Cursor

/-!
# Receiving an AgentX PDU

The decoder of `core/agentx_msg_in.c` and `core/agentx_decoder.c` on a little-endian host.
Numbers are taken from the buffer as they stand in memory; the header, the context and the
type of a varbind are then brought into the order of the host if the flags of the PDU ask for
it, the sub-identifiers and values are not.

The receive buffer is larger than what was received, so the decoder can run on behind it; a
read behind the buffer itself is a halt of its own. The allocations cannot fail.
-/

namespace SmithSnmp

open Lib Reader

/-! ### Byte order -/

/-- `NON_DEFAULT_CONTEXT` -/
def nonDefaultContext : UInt8 := 0x8
/-- `NETWORD_BYTE_ORDER` -/
def networdByteOrder : UInt8 := 0x10

/-- `htoax16` and `axtoh16` -/
def axtoh16 (x : UInt16) (flags : UInt8) : UInt16 :=
  if flags &&& networdByteOrder ≠ 0 then bswap16 x else x

/-- `htoax32` and `axtoh32` -/
def axtoh32 (x : UInt32) (flags : UInt8) : UInt32 :=
  if flags &&& networdByteOrder ≠ 0 then bswap32 x else x

/-- `uint_sizeof` -/
def uintSizeof (n : ℕ) : ℕ := (n + 3) / 4 * 4

/-! ### PDUs -/

/-- `AGENTX_PDU_CLOSE` -/
def agentxPduClose : UInt8 := 2
/-- `AGENTX_PDU_REG` -/
def agentxPduReg : UInt8 := 3
/-- `AGENTX_PDU_UNREG` -/
def agentxPduUnreg : UInt8 := 4
/-- `AGENTX_PDU_GET` -/
def agentxPduGet : UInt8 := 5
/-- `AGENTX_PDU_GETNEXT` -/
def agentxPduGetnext : UInt8 := 6
/-- `AGENTX_PDU_GETBULK` -/
def agentxPduGetbulk : UInt8 := 7
/-- `AGENTX_PDU_TESTSET` -/
def agentxPduTestset : UInt8 := 8
/-- `AGENTX_PDU_COMMITSET` -/
def agentxPduCommitset : UInt8 := 9
/-- `AGENTX_PDU_UNDOSET` -/
def agentxPduUndoset : UInt8 := 10
/-- `AGENTX_PDU_CLEANUPSET` -/
def agentxPduCleanupset : UInt8 := 11
/-- `AGENTX_PDU_RESPONSE` -/
def agentxPduResponse : UInt8 := 18

/-- `enum agentx_err_code` -/
inductive AgentxErrCode where
  | pduCtxLen
  | vbValueLen
  | vbOidLen
  | srOidLen
deriving DecidableEq, Repr

/-- `struct x_pdu_hdr` -/
structure XPduHdr where
  version : UInt8 := 0
  type : UInt8 := 0
  flags : UInt8 := 0
  reserved : UInt8 := 0
  sessionId : UInt32 := 0
  transactionId : UInt32 := 0
  packetId : UInt32 := 0
  /-- octets behind the header -/
  payloadLength : UInt32 := 0
deriving DecidableEq, Repr

/-- `struct x_search_range` -/
structure XSearchRange where
  start : Oid
  stop : Oid
  startInclude : UInt8
  endInclude : UInt8
deriving DecidableEq, Repr

/-- `struct x_var_bind`; `valLen` is a number of elements in a varbind that came in, and of
bytes in one that goes out. -/
structure XVarBind where
  oid : Oid
  valType : UInt16
  valLen : UInt32
  value : List UInt8
deriving DecidableEq, Repr

/-- `struct agentx_datagram`; the members of the union `u` side by side. -/
structure AgentxDatagram where
  context : List UInt8 := []
  pduHdr : XPduHdr := {}
  /-- `u.close.reason` -/
  reason : UInt8 := 0
  /-- `u.getbulk.non_rep` -/
  nonRep : UInt16 := 0
  /-- `u.getbulk.max_rep` -/
  maxRep : UInt16 := 0
  /-- `u.response.sys_up_time` -/
  sysUpTime : UInt32 := 0
  /-- `u.response.error` -/
  error : UInt16 := 0
  /-- `u.response.index` -/
  index : UInt16 := 0
  vbInList : List XVarBind := []
  vbOutList : List XVarBind := []
  srInList : List XSearchRange := []
deriving DecidableEq, Repr

/-- Readers of AgentX PDUs. -/
abbrev XReader := Reader UInt8 AgentxErrCode

/-! ### Values -/

/-- `*(uint16_t *)buf` -/
def readHalf : XReader UInt16 := do
  let bs ← octets 2
  pure (peekHalf bs)

/-- `*(uint32_t *)buf` -/
def readWord : XReader UInt32 := do
  let bs ← octets 4
  pure (peekWord bs)

/-- `oid_src[0]` up to `oid_src[n - 1]` -/
def readWords (n : ℕ) : XReader (List UInt32) := do
  let bs ← octets (4 * n)
  pure (peekOid bs n)

/-- An object identifier without sub-identifiers and prefix is the null identifier. -/
def isNullObjid (nSubid pfx : UInt8) : Bool := nSubid = 0 && pfx = 0

/-- The size that `agentx_value_dec_try` returns for an object identifier. -/
def objidDecTry (nSubid pfx : UInt8) : ℕ :=
  if isNullObjid nSubid pfx then 0 else (nSubid.toNat + 5) * 4

/-- The number of sub-identifiers and the prefix, with the check of the size. -/
def objidHead (limit : ℕ) (err : AgentxErrCode) : XReader (UInt8 × UInt8) := do
  let nSubid ← octet
  let pfx ← octet
  if limit < objidDecTry nSubid pfx then fail err else pure (nSubid, pfx)

/-- `agentx_value_dec` for an object identifier, behind its first four octets. -/
def objidTail (head : UInt8 × UInt8) : XReader Oid :=
  if isNullObjid head.1 head.2 then pure []
  else do
    let subIds ← readWords head.1.toNat
    pure (1 :: 3 :: 6 :: 1 :: head.2.toUInt32 :: subIds)

/-- How the values of a type are laid out in a PDU. -/
inductive ValueLayout where
  /-- four bytes -/
  | word
  /-- eight bytes -/
  | long
  /-- a length, and bytes padded to a multiple of four -/
  | string
  /-- an object identifier -/
  | objid
  /-- nothing -/
  | none
deriving DecidableEq, Repr

/-- The cases over the types of values. -/
def valueLayout (type : UInt16) : ValueLayout :=
  if type = asn1TagInt.toUInt16 ∨ type = asn1TagCnt.toUInt16 ∨ type = asn1TagGau.toUInt16 ∨
      type = asn1TagTimeticks.toUInt16 then .word
  else if type = asn1TagCnt64.toUInt16 then .long
  else if type = asn1TagOctstr.toUInt16 ∨ type = asn1TagIpaddr.toUInt16 then .string
  else if type = asn1TagObjid.toUInt16 then .objid
  else .none

/-- `agentx_value_dec` for the low byte of a type, with the check of `agentx_value_dec_try`
before it: the number of elements and the bytes of the value. -/
def agentxValueDec (type : UInt8) : XReader (UInt32 × List UInt8) :=
  match valueLayout type.toUInt16 with
  | .word => do
      let bs ← octets 4
      pure (1, bs)
  | .long => do
      let bs ← octets 8
      pure (1, bs)
  | .string => do
      -- the length is not brought into the order of the host
      let len ← readWord
      if asn1ValueMaxLen < len.toNat then fail .vbValueLen
      else do
        let bs ← octets len.toNat
        skip (uintSizeof len.toNat - len.toNat)
        pure (len, bs)
  | .objid => do
      let head ← objidHead asn1ValueMaxLen .vbValueLen
      skip 2
      let oid ← objidTail head
      pure (UInt32.ofNat oid.length, oid.flatMap leBytes)
  | .none => pure (0, [])

/-- `var_bind_alloc` -/
def xVarBindAlloc (flags : UInt8) : XReader XVarBind := do
  let type ← readHalf
  skip 2
  let head ← objidHead (4 * asn1OidMaxLen) .vbOidLen
  skip 2
  let oid ← objidTail head
  let val ← agentxValueDec (axtoh16 type flags).toUInt8
  pure { oid := oid, valType := axtoh16 type flags, valLen := val.1, value := val.2 }

/-- An end of a search range with its `include` octet. -/
def rangeEnd : XReader (Oid × UInt8) := do
  let head ← objidHead (4 * asn1OidMaxLen) .srOidLen
  let incl ← octet
  skip 1
  let oid ← objidTail head
  pure (oid, incl)

/-- `search_range_alloc` -/
def searchRangeAlloc : XReader XSearchRange := do
  let start ← rangeEnd
  let stop ← rangeEnd
  pure { start := start.1, stop := stop.1, startInclude := start.2, endInclude := stop.2 }

/-- The loops of `var_bind_parse` and `search_range_parse`, until the payload length is used
up; as many rounds as there are octets in the buffer. -/
def parseItems {α : Type} (item : XReader α) : ℕ → UInt32 → XReader (List α)
  | 0, _ => fun _ => .error .outside
  | fuel + 1, payload =>
    if payload = 0 then pure []
    else do
      let a ← measured item
      let rest ← parseItems item fuel (payload - UInt32.ofNat a.2)
      pure (a.1 :: rest)

/-! ### The PDU -/

/-- The header of a PDU. -/
def readPduHdr : XReader XPduHdr := do
  let version ← octet
  let type ← octet
  let flags ← octet
  let reserved ← octet
  let sessionId ← readWord
  let transactionId ← readWord
  let packetId ← readWord
  let payloadLength ← readWord
  pure {
    version := version
    type := type
    flags := flags
    reserved := reserved
    sessionId := axtoh32 sessionId flags
    transactionId := axtoh32 transactionId flags
    packetId := axtoh32 packetId flags
    payloadLength := axtoh32 payloadLength flags }

/-- A datagram from whose payload length `n` octets are taken. -/
def AgentxDatagram.consume (xdg : AgentxDatagram) (n : ℕ) : AgentxDatagram :=
  { xdg with
    pduHdr := { xdg.pduHdr with payloadLength := xdg.pduHdr.payloadLength - UInt32.ofNat n } }

/-- A datagram whose payload length is used up. -/
def AgentxDatagram.exhaust (xdg : AgentxDatagram) : AgentxDatagram :=
  { xdg with pduHdr := { xdg.pduHdr with payloadLength := 0 } }

/-- The optional context. -/
def contextParse (xdg : AgentxDatagram) : XReader AgentxDatagram :=
  if xdg.pduHdr.flags &&& nonDefaultContext ≠ 0 then do
    let len ← readWord
    let ctxLen := axtoh32 len xdg.pduHdr.flags
    -- `xdg->ctx_len + 1 > sizeof(xdg->context)`, in 32 bits
    if 41 < ctxLen + 1 then fail .pduCtxLen
    else do
      let bs ← octets ctxLen.toNat
      skip (uintSizeof ctxLen.toNat - ctxLen.toNat)
      pure ({ xdg with context := bs }.consume (4 + uintSizeof ctxLen.toNat))
  else pure xdg

/-- The additional data of some PDU types. -/
def additionalParse (xdg : AgentxDatagram) : XReader AgentxDatagram :=
  let flags := xdg.pduHdr.flags
  if xdg.pduHdr.type = agentxPduClose then do
    let reason ← octet
    skip 3
    pure ({ xdg with reason := reason }.consume 4)
  else if xdg.pduHdr.type = agentxPduGetbulk then do
    let nonRep ← readHalf
    let maxRep ← readHalf
    pure ({ xdg with nonRep := axtoh16 nonRep flags, maxRep := axtoh16 maxRep flags }.consume 4)
  else if xdg.pduHdr.type = agentxPduResponse then do
    let sysUpTime ← readWord
    let error ← readHalf
    let index ← readHalf
    pure ({ xdg with
      sysUpTime := axtoh32 sysUpTime flags
      error := axtoh16 error flags
      index := axtoh16 index flags }.consume 8)
  else pure xdg

/-- The PDU types with search ranges. -/
def hasRanges (type : UInt8) : Bool :=
  type = agentxPduGet || type = agentxPduGetnext || type = agentxPduGetbulk

/-- The PDU types with varbinds. -/
def hasVarBinds (type : UInt8) : Bool := type = agentxPduTestset || type = agentxPduResponse

/-- The varbinds or search ranges of `agentx_decode`. -/
def itemsParse (xdg : AgentxDatagram) : XReader AgentxDatagram := do
  let c ← get
  let fuel := c.buf.length + 1
  if hasRanges xdg.pduHdr.type then do
    let srs ← parseItems searchRangeAlloc fuel xdg.pduHdr.payloadLength
    pure { xdg.exhaust with srInList := srs }
  else if hasVarBinds xdg.pduHdr.type then do
    let vbs ← parseItems (xVarBindAlloc xdg.pduHdr.flags) fuel xdg.pduHdr.payloadLength
    pure { xdg.exhaust with vbInList := vbs }
  else pure xdg

/-- `agentx_decode` on a cleared datagram. -/
def agentxDecode : XReader AgentxDatagram := do
  let hdr ← readPduHdr
  let xdg ← contextParse { pduHdr := hdr }
  let xdg ← additionalParse xdg
  itemsParse xdg

end SmithSnmp
