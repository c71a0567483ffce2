import SmithSnmp.Ber
import SmithSnmp.Datagram
import SmithSnmp.Lib.Cursor

/-!
# Receiving a Message

The decoder of `core/snmp_msg_in.c`. One cursor moves through the received bytes; of all
lengths only the outermost one is compared with their number, so every read can lie
outside, which is a halt of its own (`Halt.outside`). The buffer is changed in place twice:
the authentication parameters are blanked after they are read, and an encrypted PDU is
overwritten with its plain text.

The flags are copied to a field of one octet, whatever their number. Behind the field are three
unused octets and `msg_flags_len`, by which the cursor is moved then; up to the 80th octet come
only fields that are set again before they are read, and what further octets do, from the user name
on, is not modelled (`Halt.overrun`). Nor is a message followed beyond the decoder when its flags
have gone over `msg_flags_len`, since a response to it copies the memory behind the field.

A message that is refused leaves a cleared datagram, on which the dispatcher does nothing.
The build has all cryptographic modules.
-/

namespace SmithSnmp

open Lib Reader

/-- The error codes of the decoder, `enum snmp_err_code`. -/
inductive SnmpErrCode where
  | version
  | globalDataLen
  | globalId
  | globalSize
  | globalFlags
  | globalModel
  | securityStr
  | securitySeq
  | securityEngineId
  | securityEngineIdLen
  | securityEngineBoots
  | securityEngineTime
  | securityUserName
  | securityUserNameLen
  | securityAuthPara
  | securityAuthParaLen
  | securityPrivParaLen
  | scopePduSeq
  | contextId
  | contextIdLen
  | contextName
  | contextNameLen
  | pduType
  | pduLen
  | pduReqid
  | pduErrstat
  | pduErridx
  | vbListSeq
  | vbSeq
  | vbOidType
  | vbValueLen
  | vbOidLen
  | encryptPduTag
deriving DecidableEq, Repr

/-- Readers of SNMP messages. -/
abbrev MsgReader := Reader UInt8 SnmpErrCode

/-! ### Fields -/

/-- `*buf++ != tag` -/
def readTag (tag : UInt8) (err : SnmpErrCode) : MsgReader Unit := do
  let t ← octet
  if t ≠ tag then fail err else pure ()

/-- `buf += ber_length_dec(buf, &len)` -/
def readLength : MsgReader UInt32 := fun c =>
  match berLengthDec (c.buf.drop c.pos) with
  | none => .error .outside
  | some (len, k) => .ok (len, { c with pos := c.pos + k })

/-- The header of a constructed value, whose content is read by what comes next. -/
def readOpen (tag : UInt8) (err : SnmpErrCode) : MsgReader UInt32 := do
  readTag tag err
  readLength

/-- The content of an integer. Without octets the field stays as it was cleared. When the sign
filling does not end, only the first octet is read. -/
def readIntContent (len : UInt32) : MsgReader (UInt32 × Int32) :=
  if len = 0 then pure (len, 0)
  else do
    let c ← get
    let first ← octet
    if signRounds first len.toNat = none then halt .runaway
    else do
      moveTo c.pos
      let bs ← octets len.toNat
      pure (len, (berIntDec bs).getD 0)

/-- An integer with its length. -/
def readInt (err : SnmpErrCode) : MsgReader (UInt32 × Int32) := do
  readTag asn1TagInt err
  let len ← readLength
  readIntContent len

/-- Go on, unless a check found an error. -/
def unlessErr {α : Type} (err : Option SnmpErrCode) (x : MsgReader α) : MsgReader α :=
  match err with
  | some err => fail err
  | none => x

/-- An octet string whose length is checked first. -/
def readOctstr (err : SnmpErrCode) (check : UInt32 → Option SnmpErrCode) :
    MsgReader (List UInt8) := do
  readTag asn1TagOctstr err
  let len ← readLength
  unlessErr (check len) (octets len.toNat)

/-- `if (len + 1 > sizeof(field))`, in 32 bits -/
def checkName (size : UInt32) (err : SnmpErrCode) (len : UInt32) : Option SnmpErrCode :=
  if size < len + 1 then some err else none

/-- `if (len && len != size)` -/
def checkPara (size : UInt32) (err : SnmpErrCode) (len : UInt32) : Option SnmpErrCode :=
  if len ≠ 0 ∧ len ≠ size then some err else none

/-- `SNMP_MSG_AUTH_PARA_LEN` -/
def snmpMsgAuthParaLen : UInt32 := 12
/-- `SNMP_MSG_ENCRYPT_PARA_LEN` -/
def snmpMsgEncryptParaLen : UInt32 := 8

/-! ### PDU -/

/-- `var_bind_alloc`; the caller moves the cursor on. -/
def varBindAlloc : MsgReader VarBind := do
  let oidLen ← readOpen asn1TagObjid .vbOidType
  let octs ← octets oidLen.toNat
  -- OID length decoding, keep from overflow
  let oidDecLen := if oidLen = 0 then 0 else berOidDecTry octs
  unlessErr (if asn1OidMaxLen < oidDecLen then some .vbOidLen else none) (pure ())
  let valType ← octet
  let valLen ← readLength
  unlessErr (if asn1ValueMaxLen < valLen.toNat then some .vbValueLen else none) (pure ())
  let value ← octets valLen.toNat
  pure { oid := berOidDec octs, valueType := valType, value := value }

/-- `pdu_hdr_parse` -/
def pduHdrParse (sdg : SnmpDatagram) : MsgReader SnmpDatagram := do
  let pduType ← octet
  let pduLen ← readLength
  let reqId ← readInt .pduReqid
  let errStat ← readInt .pduErrstat
  let errIdx ← readInt .pduErridx
  pure { sdg with
    pduHdr := {
      pduType := pduType
      pduLen := pduLen
      reqIdLen := reqId.1
      reqId := reqId.2
      errStatLen := errStat.1
      errStat := errStat.2
      errIdxLen := errIdx.1
      errIdx := errIdx.2 } }

/-- The loop of `var_bind_parse` while `vb_list_len` is positive. Every round reads an octet
and moves behind it, so with as many rounds as there are octets left the next one would
read outside. -/
def varBindLoop : ℕ → UInt32 → List VarBind → MsgReader (List VarBind)
  | fuel, vbListLen, vbs =>
    if vbListLen = 0 then pure vbs
    else match fuel with
      | 0 => fun _ => .error .outside
      | fuel + 1 => do
          readTag asn1TagSeq .vbSeq
          let start ← get
          let vbLen ← readLength
          let c ← get
          let vb ← varBindAlloc
          moveTo (c.pos + vbLen.toNat)
          varBindLoop fuel (vbListLen - (1 + UInt32.ofNat (c.pos - start.pos) + vbLen))
            (vbs ++ [vb])

/-- An empty list takes no rounds. -/
theorem varBindLoop_nil (rounds : ℕ) (vbs : List VarBind) :
    varBindLoop rounds 0 vbs = pure vbs := by
  cases rounds <;> rfl

/-- `var_bind_parse` -/
def varBindParse (sdg : SnmpDatagram) : MsgReader SnmpDatagram := do
  let vbListLen ← readOpen asn1TagSeq .vbListSeq
  let c ← get
  let vbs ← varBindLoop (c.buf.length - c.pos) vbListLen []
  pure { sdg with vbListLen := 0, vbInList := vbs }

/-! ### SNMPv3 -/

/-- `msg_flags_len` after the flags are copied to `msg_flags`: the fifth octet and the three behind
it go over the length. -/
def msgFlagsLen (flags : List UInt8) : UInt32 :=
  peekWord (pokeBytes (leBytes (UInt32.ofNat flags.length)) ((flags.drop 4).take 4))

/-- The cursor behind the flags, from the start of their content on. -/
def skipFlags (flags : List UInt8) : MsgReader Unit := do
  let c ← get
  if 80 < flags.length then halt .overrun
  else moveTo (c.pos - flags.length + (msgFlagsLen flags).toNat)

/-- `global_data_decode` -/
def globalDataDecode (sdg : SnmpDatagram) : MsgReader SnmpDatagram := do
  let msgId ← readInt .globalId
  let msgSize ← readInt .globalSize
  let msgFlags ← readOctstr .globalFlags fun _ => none
  skipFlags msgFlags
  let msgModel ← readInt .globalModel
  pure { sdg with
    msgIdLen := msgId.1
    msgId := msgId.2
    msgSizeLen := msgSize.1
    msgMaxSize := msgSize.2
    msgFlags := msgFlags
    msgModelLen := msgModel.1
    msgSecurityModel := msgModel.2 }

/-- The authentication parameters are blanked in the buffer for the authentication step. -/
def readAuthPara : MsgReader (List UInt8) := do
  let authPara ← readOctstr .securityAuthPara (checkPara snmpMsgAuthParaLen .securityAuthParaLen)
  let c ← get
  overwrite (c.pos - authPara.length) (List.replicate authPara.length 0)
  pure authPara

/-- The privacy parameters; a wrong tag is reported as one of the engine time. -/
def readPrivPara : MsgReader (List UInt8) :=
  readOctstr .securityEngineTime (checkPara snmpMsgEncryptParaLen .securityPrivParaLen)

/-- `security_parameter_decode` up to the user name -/
def usmDecode (sdg : SnmpDatagram) : MsgReader SnmpDatagram := do
  let securStrLen ← readOpen asn1TagOctstr .securityStr
  let securParaLen ← readOpen asn1TagSeq .securitySeq
  let engineId ← readOctstr .securityEngineId (checkName 33 .securityEngineIdLen)
  let engineBoots ← readInt .securityEngineBoots
  let engineTime ← readInt .securityEngineTime
  let userName ← readOctstr .securityUserName (checkName 41 .securityUserNameLen)
  pure { sdg with
    securStrLen := securStrLen
    securParaLen := securParaLen
    engineId := engineId
    engineBootsLen := engineBoots.1
    engineBoots := engineBoots.2
    engineTimeLen := engineTime.1
    engineTime := engineTime.2
    userName := userName }

/-- `security_parameter_decode` -/
def securityParameterDecode (sdg : SnmpDatagram) : MsgReader SnmpDatagram := do
  let sdg ← usmDecode sdg
  let authPara ← readAuthPara
  let privPara ← readPrivPara
  pure { sdg with authPara := authPara, privPara := privPara }

/-- The MAC of a message under the key of a user: the return code, one for an unknown
algorithm, and the array `mac` of 20 octets, which is zero before. -/
def userMac (cr : Crypto) (user : MibUser) (wholeMsg : List UInt8) : Int32 × List UInt8 :=
  let (ret, mac) :=
    if user.secrets.authMode = snmpUserAuthMd5 then
      cr.md5Hmac (user.secrets.authKey.take 16) wholeMsg
    else if user.secrets.authMode = snmpUserAuthSha1 then
      cr.sha1Hmac (user.secrets.authKey.take 20) wholeMsg
    else (1, [])
  (ret, (mac ++ List.replicate 20 0).take 20)

/-- `snmp_msg_authen` for the user of the datagram -/
def snmpMsgAuthen (cr : Crypto) (user : MibUser) (sdg : SnmpDatagram) : SnmpDatagram :=
  let (ret, mac) := userMac cr user sdg.recvBuf
  if ret ≠ 0 then { sdg with authErr := snmpErrStatGenErr.toUInt32.toUInt8 }
  else if mac.take sdg.authPara.length ≠ sdg.authPara then
    { sdg with authErr := snmpErrStatAuthorization.toUInt32.toUInt8 }
  else sdg

/-- The initial vector of the encryption: engine boots and time in network byte order, and
the privacy parameters. With no privacy parameters its second half is not set. -/
def privIv (sdg : SnmpDatagram) : List UInt8 :=
  beBytes sdg.engineBoots.toUInt32 ++ beBytes sdg.engineTime.toUInt32 ++ sdg.privPara

/-- `snmp_msg_decrypt` for the user of the datagram: the plain text that is written, nothing
for an unknown privacy algorithm. -/
def snmpMsgDecrypt (cr : Crypto) (user : MibUser) (sdg : SnmpDatagram) (cipher : List UInt8) :
    List UInt8 :=
  if user.secrets.privMode = snmpUserEncryptAes then
    cr.aesDecrypt (user.secrets.privKey.take 16) (privIv sdg) cipher
  else []

/-- The decryption of the scoped PDU in place: the plain text starts where the header of the
cipher text was, and the cursor stays there. -/
def decryptScopedPdu (cr : Crypto) (user : MibUser) (sdg : SnmpDatagram) : MsgReader Unit := do
  let c ← get
  let scopeLen ← readOpen asn1TagOctstr .encryptPduTag
  let cipher ← octets scopeLen.toNat
  moveTo c.pos
  overwrite c.pos (snmpMsgDecrypt cr user sdg cipher)

/-- The user security model: authentication, and decryption when it succeeds. -/
def userSecurity (cr : Crypto) (users : List MibUser) (sdg : SnmpDatagram) :
    MsgReader SnmpDatagram := do
  let c ← get
  let sdg := { sdg with recvBuf := c.buf, user := mibUserSearch users (cString sdg.userName) }
  match sdg.user with
  | none => pure sdg
  | some user =>
    if sdg.hasFlag snmpSecurFlagAuth then
      let sdg := snmpMsgAuthen cr user sdg
      if sdg.authErr = 0 ∧ sdg.hasFlag snmpSecurFlagEncrypt = true then do
        decryptScopedPdu cr user sdg
        pure sdg
      else pure sdg
    else pure sdg

/-! ### Messages -/

/-- The part of `snmp_decode` before the user security model. -/
def headerDecode (sdg : SnmpDatagram) : MsgReader SnmpDatagram := do
  let msgLen ← readOpen asn1TagSeq .globalDataLen
  let sdg ← globalDataDecode { sdg with msgLen := msgLen }
  securityParameterDecode sdg

/-- The part of `snmp_decode` between the user security model and the context name. -/
def scopeDecode (sdg : SnmpDatagram) : MsgReader SnmpDatagram := do
  let scopeLen ← readOpen asn1TagSeq .scopePduSeq
  let contextId ← readOctstr .contextId (checkName 33 .contextIdLen)
  pure { sdg with scopeLen := scopeLen, contextId := contextId }

/-- The part of `snmp_decode` that all versions have in common. -/
def bodyDecode (sdg : SnmpDatagram) : MsgReader SnmpDatagram := do
  let contextName ← readOctstr .contextName (checkName 41 .contextNameLen)
  let sdg ← pduHdrParse { sdg with contextName := contextName }
  varBindParse sdg

/-- `snmp_decode`, from the length of the message on -/
def snmpDecode (cr : Crypto) (users : List MibUser) : MsgReader SnmpDatagram := do
  let dataLen ← readLength
  let version ← readInt .version
  let sdg : SnmpDatagram := { dataLen := dataLen, verLen := version.1, version := version.2 }
  if 3 ≤ sdg.version then do
    let sdg ← headerDecode sdg
    let sdg ← userSecurity cr users sdg
    let sdg ← scopeDecode sdg
    bodyDecode sdg
  else bodyDecode sdg

/-- The checks of `snmp_recv`. -/
def checkMessage (len : ℕ) : MsgReader Unit := do
  readTag asn1TagSeq .pduType
  let c ← get
  let dataLen ← readLength
  let c' ← get
  if 1 + UInt32.ofNat (c'.pos - c.pos) + dataLen ≠ UInt32.ofNat len then fail .pduLen
  -- `snmp_decode` starts again behind the tag
  else moveTo 1

/-- The datagram that a run of the decoder leaves, unless the flags have changed
`msg_flags_len`. -/
def decoded (r : Except (Halt SnmpErrCode) (SnmpDatagram × Cursor UInt8)) :
    Except (Halt SnmpErrCode) SnmpDatagram :=
  match r with
  | .error e => .error e
  | .ok (sdg, _) => if 4 < sdg.msgFlags.length then .error .overrun else .ok sdg

/-- `snmp_recv`: the datagram that is dispatched, or why there is none. -/
def snmpRecv (cr : Crypto) (users : List MibUser) (buffer : List UInt8) :
    Except (Halt SnmpErrCode) SnmpDatagram :=
  decoded ((do checkMessage buffer.length; snmpDecode cr users) ⟨buffer, 0⟩)

theorem decoded_eq_ok_iff {r : Except (Halt SnmpErrCode) (SnmpDatagram × Cursor UInt8)}
    {sdg : SnmpDatagram} :
    decoded r = .ok sdg ↔ ∃ c, r = .ok (sdg, c) ∧ sdg.msgFlags.length ≤ 4 := by
  rcases r with e | ⟨sdg', c⟩
  · simp [decoded]
  · by_cases h : 4 < sdg'.msgFlags.length
    · simp only [decoded, h, if_true, reduceCtorEq, Except.ok.injEq, Prod.mk.injEq, false_iff]
      rintro ⟨_, ⟨rfl, -⟩, hle⟩
      omega
    · simp only [decoded, h, if_false, Except.ok.injEq, Prod.mk.injEq]
      constructor
      · rintro rfl
        exact ⟨c, ⟨rfl, rfl⟩, not_lt.mp h⟩
      · rintro ⟨_, ⟨rfl, -⟩, -⟩
        rfl

/-- A message is received when the run of the decoder comes to an end, and its flags are in place. -/
theorem snmpRecv_eq_ok_iff {cr : Crypto} {users : List MibUser} {b : List UInt8}
    {sdg : SnmpDatagram} : snmpRecv cr users b = .ok sdg ↔
      ∃ c, (do checkMessage b.length; snmpDecode cr users : MsgReader SnmpDatagram) ⟨b, 0⟩ =
        .ok (sdg, c) ∧ sdg.msgFlags.length ≤ 4 :=
  decoded_eq_ok_iff

end SmithSnmp
