import SmithSnmp.Lib.Tlv
import SmithSnmp.MsgIn
import SmithSnmp.MsgProc

/-!
# Sending a Response

The encoder of `core/snmp_msg_out.c`. A first pass adds up all lengths, in 32 bits and from
the integer lengths that the request had; the second one writes tags, lengths and contents.
A message of SNMPv3 is then encrypted and signed in place.

What is written is kept as trees of tagged values, so that the octets emitted for a value
can be told from the length declared for it. The octets at `snmp_msg_auth_para` and
`snmp_msg_priv_para` are the contents of two of these values: to overwrite them is to
replace the parameters in the datagram of the buffer. `none` is a run without a response:
`ber_oid_enc_try` does not end, or a cipher text is copied from `NULL`.
-/

namespace SmithSnmp

open Lib

/-- `snmpv3_engine_id`: `snmp.h` declares one octet more than `snmp.c` gives. -/
def snmpv3EngineId : List UInt8 :=
  [0x80, 0x00, 0x00, 0x00, 0x04, 0x53, 0x6d, 0x61, 0x72, 0x74, 0x53, 0x4e, 0x4d, 0x50, 0x00]

/-! ### The size pass -/

/-- What the size pass counts for an octet string. -/
def octstrLen (octets : List UInt8) : UInt32 := tlvLen (UInt32.ofNat octets.length)

/-- `global_data_encode_try` -/
def globalDataEncodeTry (sdg : SnmpDatagram) : UInt32 :=
  tlvLen sdg.msgIdLen + tlvLen sdg.msgSizeLen + octstrLen sdg.msgFlags + tlvLen sdg.msgModelLen

/-- `security_parameter_encode_try` -/
def securityParameterEncodeTry (sdg : SnmpDatagram) : UInt32 :=
  octstrLen snmpv3EngineId + tlvLen sdg.engineBootsLen + tlvLen sdg.engineTimeLen +
    octstrLen sdg.userName + octstrLen sdg.authPara + octstrLen sdg.privPara

/-- `snmp_scope_pdu_len` -/
def snmpScopePduLen (sdg : SnmpDatagram) : UInt32 := tlvLen sdg.scopeLen

/-- The lengths of `asn1_encode` that only SNMPv3 has; the header of a cipher text is
counted whenever the flag of encryption is set. -/
def asn1EncodeTryV3 (sdg : SnmpDatagram) : SnmpDatagram :=
  let sdg := { sdg with
    scopeLen := sdg.scopeLen + octstrLen snmpv3EngineId
    securParaLen := securityParameterEncodeTry sdg
    securStrLen := tlvLen (securityParameterEncodeTry sdg)
    msgLen := globalDataEncodeTry sdg }
  let scopeHdrLen := 1 + UInt32.ofNat (berLengthEncTry sdg.scopeLen)
  let cipherHdrLen :=
    if sdg.hasFlag snmpSecurFlagEncrypt then
      1 + UInt32.ofNat (berLengthEncTry (snmpScopePduLen sdg))
    else 0
  { sdg with
    dataLen := tlvLen sdg.msgLen + tlvLen sdg.securStrLen + scopeHdrLen + cipherHdrLen }

/-- The size pass of `asn1_encode`. -/
def asn1EncodeTry (sdg : SnmpDatagram) : SnmpDatagram :=
  let ph := sdg.pduHdr
  let pduLen := tlvLen sdg.vbListLen + tlvLen ph.reqIdLen + tlvLen ph.errStatLen +
    tlvLen ph.errIdxLen
  let sdg := { sdg with
    dataLen := 0
    pduHdr := { ph with pduLen := pduLen }
    scopeLen := tlvLen pduLen + octstrLen sdg.contextName }
  let sdg := if 3 ≤ sdg.version then asn1EncodeTryV3 sdg else sdg
  { sdg with dataLen := sdg.dataLen + sdg.scopeLen + tlvLen sdg.verLen }

/-! ### The fields of a message -/

/-- An integer under its declared length. -/
def intTlv (len : UInt32) (value : Int32) : Tlv := .prim asn1TagInt len (berIntEnc value)

/-- An octet string. -/
def octstrTlv (octets : List UInt8) : Tlv :=
  .prim asn1TagOctstr (UInt32.ofNat octets.length) octets

/-- `global_data_encode` -/
def globalDataEncode (sdg : SnmpDatagram) : Tlv :=
  .cons asn1TagSeq sdg.msgLen
    [intTlv sdg.msgIdLen sdg.msgId, intTlv sdg.msgSizeLen sdg.msgMaxSize,
      octstrTlv sdg.msgFlags, intTlv sdg.msgModelLen sdg.msgSecurityModel]

/-- `security_parameter_encode` -/
def securityParameterEncode (sdg : SnmpDatagram) : Tlv :=
  .cons asn1TagSeq sdg.securParaLen
    [octstrTlv snmpv3EngineId, intTlv sdg.engineBootsLen sdg.engineBoots,
      intTlv sdg.engineTimeLen sdg.engineTime, octstrTlv sdg.userName,
      octstrTlv sdg.authPara, octstrTlv sdg.privPara]

/-- What only SNMPv3 has before the context: the global data and the security string. -/
def headerTlvsV3 (sdg : SnmpDatagram) : List Tlv :=
  [globalDataEncode sdg, .cons asn1TagOctstr sdg.securStrLen [securityParameterEncode sdg]]

/-- What stands before the context. -/
def headerTlvs (sdg : SnmpDatagram) : List Tlv :=
  intTlv sdg.verLen sdg.version :: if 3 ≤ sdg.version then headerTlvsV3 sdg else []

/-- A varbind in the loop of `snmp_response`. -/
def varBindTlv (vb : VarBind) : Option Tlv :=
  (berOidEncTry vb.oid).map fun oidLen =>
    .cons asn1TagSeq vb.vbLen
      [.prim asn1TagObjid (UInt32.ofNat oidLen) (berOidEnc vb.oid),
        .prim vb.valueType (UInt32.ofNat vb.value.length) vb.value]

/-- The PDU with the varbinds `vbs`. -/
def pduTlv (sdg : SnmpDatagram) (vbs : List Tlv) : Tlv :=
  let ph := sdg.pduHdr
  .cons ph.pduType ph.pduLen
    [intTlv ph.reqIdLen ph.reqId, intTlv ph.errStatLen ph.errStat,
      intTlv ph.errIdxLen ph.errIdx, .cons asn1TagSeq sdg.vbListLen vbs]

/-- The context name and the PDU, for SNMPv3 in a sequence behind the context id. -/
def scopeTlvs (sdg : SnmpDatagram) (vbs : List Tlv) : List Tlv :=
  if 3 ≤ sdg.version then
    [.cons asn1TagSeq sdg.scopeLen
      [octstrTlv snmpv3EngineId, octstrTlv sdg.contextName, pduTlv sdg vbs]]
  else [octstrTlv sdg.contextName, pduTlv sdg vbs]

/-! ### The buffer -/

/-- What stands in `send_buf`. -/
structure SendBuf where
  /-- the datagram, with the authentication and privacy parameters that stand in the
  buffer -/
  sdg : SnmpDatagram
  /-- what the encoder wrote behind the header -/
  plain : List Tlv
  /-- the cipher text that was written over it -/
  cipher : Option Tlv := none

/-- The octets behind the header. -/
def SendBuf.body (buf : SendBuf) : List UInt8 :=
  let plain := Tlv.bytesList berLengthEnc buf.plain
  match buf.cipher with
  | none => plain
  | some cipher => pokeBytes plain (cipher.bytes berLengthEnc)

/-- The content of the datagram sequence. -/
def SendBuf.content (buf : SendBuf) : List UInt8 :=
  Tlv.bytesList berLengthEnc (headerTlvs buf.sdg) ++ buf.body

/-- The octets that were written to the buffer. -/
def SendBuf.bytes (buf : SendBuf) : List UInt8 :=
  Tlv.header berLengthEnc asn1TagSeq buf.sdg.dataLen ++ buf.content

/-- `send_len` -/
def SendBuf.sendLen (buf : SendBuf) : UInt32 := tlvLen buf.sdg.dataLen

/-! ### Security -/

/-- The salt of the encryption, from two random numbers in network byte order. -/
def privSalt (rnd : UInt32 × UInt32) : List UInt8 := beBytes rnd.1 ++ beBytes rnd.2

/-- `snmp_msg_encrypt` for the user of the datagram, with the two random numbers. For an
unknown privacy algorithm there is no cipher text to copy. -/
def snmpMsgEncrypt (cr : Crypto) (rnd : UInt32 × UInt32) (user : MibUser) (buf : SendBuf) :
    Option SendBuf :=
  let sdg := buf.sdg
  let plen := snmpScopePduLen sdg
  if user.secrets.privMode = snmpUserEncryptAes then
    let iv := privIv { sdg with privPara := privSalt rnd }
    let cipher := cr.aesEncrypt (user.secrets.privKey.take 16) iv (peekBytes buf.body plen.toNat)
    some { buf with
      sdg := { sdg with privPara := peekBytes (privSalt rnd) sdg.privPara.length }
      cipher := some (.prim asn1TagOctstr plen cipher) }
  else none

/-- `snmp_msg_signature` for the user of the datagram: the MAC of the message with blank
authentication parameters. -/
def snmpMsgSignature (cr : Crypto) (user : MibUser) (buf : SendBuf) : SendBuf :=
  let sdg := buf.sdg
  let blank : SendBuf :=
    { buf with sdg := { sdg with authPara := List.replicate sdg.authPara.length 0 } }
  let mac := (userMac cr user (peekBytes blank.bytes buf.sendLen.toNat)).2
  { buf with sdg := { sdg with authPara := peekBytes mac sdg.authPara.length } }

/-- The user security model on the way out. -/
def protectMessage (cr : Crypto) (rnd : UInt32 × UInt32) (buf : SendBuf) : Option SendBuf :=
  let sdg := buf.sdg
  if 3 ≤ sdg.version then
    match sdg.user with
    | none => some buf
    | some user =>
      if sdg.hasFlag snmpSecurFlagAuth then
        if sdg.hasFlag snmpSecurFlagEncrypt then
          (snmpMsgEncrypt cr rnd user buf).map (snmpMsgSignature cr user)
        else some (snmpMsgSignature cr user buf)
      else some buf
  else some buf

/-- `snmp_response`: the buffer that is sent. -/
def snmpResponse (cr : Crypto) (rnd : UInt32 × UInt32) (sdg : SnmpDatagram) : Option SendBuf :=
  let sdg := asn1EncodeTry sdg
  (sdg.vbOutList.mapM varBindTlv).bind fun vbs =>
    protectMessage cr rnd { sdg := sdg, plain := scopeTlvs sdg vbs }

end SmithSnmp
