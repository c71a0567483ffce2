import SmithSnmp.AgentxIn

/-!
# Sending an AgentX Response

The encoder of `core/agentx_msg_out.c` for Response PDUs. A first pass adds up the length of
the PDU in 32 bits, the second one writes it. Both of them take the numbers as they stand in
memory, whatever byte order the flags of the PDU announce.
-/

namespace SmithSnmp

/-- `struct x_pdu_buf` -/
structure XPduBuf where
  buf : List UInt8
  len : UInt32
deriving DecidableEq, Repr

/-! ### The length pass -/

/-- What the length pass adds for the value of a varbind. -/
def xValueLen (vb : XVarBind) : UInt32 :=
  match valueLayout vb.valType with
  | .word => 4
  | .long => 8
  | .string => 4 + UInt32.ofNat (uintSizeof vb.valLen.toNat)
  | .objid => if 20 < vb.valLen then 4 + (vb.valLen - 20) else 4
  | .none => 0

/-- What the length pass adds for a varbind. -/
def xVarBindLen (vb : XVarBind) : UInt32 :=
  let oidLen := UInt32.ofNat vb.oid.length
  (if 5 < oidLen then 8 + (oidLen - 5) * 4 else 8) + xValueLen vb

/-- The length pass of `agentx_response_pdu`. -/
def responseLen (vbs : List XVarBind) : UInt32 :=
  vbs.foldl (fun len vb => len + xVarBindLen vb) (20 + 4 + 2 * 2)

/-! ### The emit pass -/

/-- `objid->n_subid` -/
def objidNSubid (oid : Oid) : UInt8 := if 5 < oid.length then UInt8.ofNat (oid.length - 5) else 0

/-- `objid->prefix` -/
def objidPfx (oid : Oid) : UInt8 := if 4 < oid.length then (oid.getD 4 0).toUInt8 else 0

/-- `struct x_objid_t` with its sub-identifiers. -/
def objidEnc (oid : Oid) : List UInt8 :=
  [objidNSubid oid, objidPfx oid, 0, 0] ++ (oid.drop 5).flatMap leBytes

/-- The value of a varbind. -/
def xValueEnc (vb : XVarBind) : List UInt8 :=
  match valueLayout vb.valType with
  | .word => peekBytes vb.value 4
  | .long => peekBytes vb.value 8
  | .string =>
    leBytes vb.valLen ++ peekBytes vb.value vb.valLen.toNat ++
      List.replicate (uintSizeof vb.valLen.toNat - vb.valLen.toNat) 0
  | .objid =>
    objidEnc (peekOid vb.value (vb.valLen.toNat / 4)) ++
      List.replicate (if 20 < vb.valLen then vb.valLen.toNat % 4 else 0) 0
  | .none => []

/-- A varbind. -/
def xVarBindEnc (vb : XVarBind) : List UInt8 :=
  leBytes16 vb.valType ++ [0, 0] ++ objidEnc vb.oid ++ xValueEnc vb

/-- `struct x_pdu_hdr` in memory. -/
def pduHdrEnc (ph : XPduHdr) : List UInt8 :=
  [ph.version, ph.type, ph.flags, ph.reserved] ++ leBytes ph.sessionId ++
    leBytes ph.transactionId ++ leBytes ph.packetId ++ leBytes ph.payloadLength

/-- The header of a Response. -/
def responseHdr (xdg : AgentxDatagram) : XPduHdr :=
  { xdg.pduHdr with
    type := agentxPduResponse
    reserved := 0
    payloadLength := responseLen xdg.vbOutList - 20 }

/-- `agentx_response_pdu` -/
def agentxResponsePdu (xdg : AgentxDatagram) : XPduBuf where
  buf := pduHdrEnc (responseHdr xdg) ++ [0, 0, 0, 0] ++ leBytes16 xdg.error ++
    leBytes16 xdg.index ++ xdg.vbOutList.flatMap xVarBindEnc
  len := responseLen xdg.vbOutList

end SmithSnmp
