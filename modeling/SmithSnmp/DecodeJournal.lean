import SmithSnmp.Bounds
import SmithSnmp.Lib.Journal

/-!
# The Journal of the Decoder

The decoder of `core/snmp_msg_in.c` once more, function for function, with a journal of what it
hands to `ber_value_dec`: the octet strings that are copied to fixed-size fields of the datagram
with their decoded lengths, and the integers with their lengths and first octets. Without the
journal it is the decoder (`snmpRecv_does`).

What is copied is read off the journal: `msg_flags` has one octet and no check at all, and the
checks `len + 1 > sizeof(field)` are made in 32 bits, so the greatest length passes all of them.
-/

namespace SmithSnmp

open Lib Reader

/-! ### Entries -/

/-- The fields of `struct snmp_datagram` to which octet strings are copied. -/
inductive CopiedField where
  | msgFlags
  | engineId
  | userName
  | authPara
  | privPara
  | contextId
  | contextName
deriving DecidableEq, Repr

/-- The `sizeof` of a field. -/
def CopiedField.size : CopiedField → ℕ
  | .msgFlags => 1
  | .engineId => 33
  | .userName => 41
  | .authPara => 12
  | .privPara => 8
  | .contextId => 33
  | .contextName => 41

/-- What the checks of the decoder let through to a field: `msg_flags` has none. -/
def CopiedField.Admits : CopiedField → UInt32 → Prop
  | .msgFlags, _ => True
  | .engineId, len => AdmitsName 33 len
  | .userName, len => AdmitsName 41 len
  | .authPara, len => AdmitsPara snmpMsgAuthParaLen len
  | .privPara, len => AdmitsPara snmpMsgEncryptParaLen len
  | .contextId, len => AdmitsName 33 len
  | .contextName, len => AdmitsName 41 len

/-- What the decoder does with the content of a field of the message. -/
inductive DecodeNote where
  /-- as many octets are copied to the field -/
  | copy (field : CopiedField) (len : UInt32)
  /-- `ber_int_dec` runs on as many octets, of which the first is given if it is there -/
  | int (len : UInt32) (first : Option UInt8)
deriving DecidableEq, Repr

/-- What the decoder has made sure of. -/
def DecodeNote.Checked : DecodeNote → Prop
  | .copy field len => field.Admits len
  | .int len _ => len ≠ 0

/-- Readers of SNMP messages with a journal. -/
abbrev MsgJournal := Journal UInt8 SnmpErrCode DecodeNote

namespace Noted

open Journal

/-! ### The decoder -/

/-- An integer with content octets goes to `ber_int_dec`. -/
def noteInt (len : UInt32) : MsgJournal Unit := do
  let c ← quiet get
  if len = 0 then pure () else note (.int len c.buf[c.pos]?)

/-- An integer with its length. -/
def readInt (err : SnmpErrCode) : MsgJournal (UInt32 × Int32) := do
  quiet (readTag asn1TagInt err)
  let len ← quiet readLength
  noteInt len
  quiet (readIntContent len)

/-- An octet string that is copied to a field when its length passes the check. -/
def readOctstr (field : CopiedField) (err : SnmpErrCode) (check : UInt32 → Option SnmpErrCode) :
    MsgJournal (List UInt8) := do
  quiet (readTag asn1TagOctstr err)
  let len ← quiet readLength
  match check len with
  | some err => quiet (fail err)
  | none => do
      note (.copy field len)
      quiet (octets len.toNat)

/-- `pdu_hdr_parse` -/
def pduHdrParse (sdg : SnmpDatagram) : MsgJournal SnmpDatagram := do
  let pduType ← quiet octet
  let pduLen ← quiet readLength
  let reqId ← readInt .pduReqid
  let errStat ← readInt .pduErrstat
  let errIdx ← readInt .pduErridx
  pure { sdg with
    pduHdr := {
      pduType := pduType
      pduLen := pduLen
      reqIdLen := reqId.1
      reqId := reqId.2
      errStatLen := errStat.1
      errStat := errStat.2
      errIdxLen := errIdx.1
      errIdx := errIdx.2 } }

/-- `global_data_decode` -/
def globalDataDecode (sdg : SnmpDatagram) : MsgJournal SnmpDatagram := do
  let msgId ← readInt .globalId
  let msgSize ← readInt .globalSize
  let msgFlags ← readOctstr .msgFlags .globalFlags fun _ => none
  quiet (skipFlags msgFlags)
  let msgModel ← readInt .globalModel
  pure { sdg with
    msgIdLen := msgId.1
    msgId := msgId.2
    msgSizeLen := msgSize.1
    msgMaxSize := msgSize.2
    msgFlags := msgFlags
    msgModelLen := msgModel.1
    msgSecurityModel := msgModel.2 }

/-- The authentication parameters, which are blanked in the buffer. -/
def readAuthPara : MsgJournal (List UInt8) := do
  let authPara ← readOctstr .authPara .securityAuthPara
    (checkPara snmpMsgAuthParaLen .securityAuthParaLen)
  let c ← quiet get
  quiet (overwrite (c.pos - authPara.length) (List.replicate authPara.length 0))
  pure authPara

/-- The privacy parameters. -/
def readPrivPara : MsgJournal (List UInt8) :=
  readOctstr .privPara .securityEngineTime (checkPara snmpMsgEncryptParaLen .securityPrivParaLen)

/-- `security_parameter_decode` up to the user name -/
def usmDecode (sdg : SnmpDatagram) : MsgJournal SnmpDatagram := do
  let securStrLen ← quiet (readOpen asn1TagOctstr .securityStr)
  let securParaLen ← quiet (readOpen asn1TagSeq .securitySeq)
  let engineId ← readOctstr .engineId .securityEngineId (checkName 33 .securityEngineIdLen)
  let engineBoots ← readInt .securityEngineBoots
  let engineTime ← readInt .securityEngineTime
  let userName ← readOctstr .userName .securityUserName (checkName 41 .securityUserNameLen)
  pure { sdg with
    securStrLen := securStrLen
    securParaLen := securParaLen
    engineId := engineId
    engineBootsLen := engineBoots.1
    engineBoots := engineBoots.2
    engineTimeLen := engineTime.1
    engineTime := engineTime.2
    userName := userName }

/-- `security_parameter_decode` -/
def securityParameterDecode (sdg : SnmpDatagram) : MsgJournal SnmpDatagram := do
  let sdg ← usmDecode sdg
  let authPara ← readAuthPara
  let privPara ← readPrivPara
  pure { sdg with authPara := authPara, privPara := privPara }

/-- The part of `snmp_decode` before the user security model. -/
def headerDecode (sdg : SnmpDatagram) : MsgJournal SnmpDatagram := do
  let msgLen ← quiet (readOpen asn1TagSeq .globalDataLen)
  let sdg ← globalDataDecode { sdg with msgLen := msgLen }
  securityParameterDecode sdg

/-- The part of `snmp_decode` between the user security model and the context name. -/
def scopeDecode (sdg : SnmpDatagram) : MsgJournal SnmpDatagram := do
  let scopeLen ← quiet (readOpen asn1TagSeq .scopePduSeq)
  let contextId ← readOctstr .contextId .contextId (checkName 33 .contextIdLen)
  pure { sdg with scopeLen := scopeLen, contextId := contextId }

/-- The part of `snmp_decode` that all versions have in common. The values of the varbinds are kept
as they are until the request is processed. -/
def bodyDecode (sdg : SnmpDatagram) : MsgJournal SnmpDatagram := do
  let contextName ← readOctstr .contextName .contextName (checkName 41 .contextNameLen)
  let sdg ← pduHdrParse { sdg with contextName := contextName }
  quiet (varBindParse sdg)

/-- `snmp_decode` -/
def snmpDecode (cr : Crypto) (users : List MibUser) : MsgJournal SnmpDatagram := do
  let dataLen ← quiet readLength
  let version ← readInt .version
  let sdg : SnmpDatagram := { dataLen := dataLen, verLen := version.1, version := version.2 }
  if 3 ≤ sdg.version then do
    let sdg ← headerDecode sdg
    let sdg ← quiet (userSecurity cr users sdg)
    let sdg ← scopeDecode sdg
    bodyDecode sdg
  else bodyDecode sdg

/-- `snmp_recv` -/
def snmpRecv (cr : Crypto) (users : List MibUser) (buffer : List UInt8) :
    List DecodeNote × Except (Halt SnmpErrCode) SnmpDatagram :=
  let run := (do quiet (checkMessage buffer.length); snmpDecode cr users) ⟨buffer, 0⟩
  (run.1, decoded run.2)

/-! ### What is done and what is noted -/

/-- An integer is noted when it has octets. -/
theorem noteInt_records (len : UInt32) :
    Records (noteInt len) (pure ()) DecodeNote.Checked := by
  refine Records.get_bind fun c => ?_
  split
  · exact Records.pure ()
  · next h => exact Records.note h

/-- An integer with its length. -/
theorem readInt_records (err : SnmpErrCode) :
    Records (readInt err) (SmithSnmp.readInt err) DecodeNote.Checked :=
  (Records.quiet _).bind fun _ => (Records.quiet _).bind fun len =>
    (noteInt_records len).after (Records.quiet _)

/-- An octet string is copied with a length that passes the check. -/
theorem readOctstr_records {field : CopiedField} {err : SnmpErrCode}
    {check : UInt32 → Option SnmpErrCode} (h : ∀ len, check len = none → field.Admits len) :
    Records (readOctstr field err check) (SmithSnmp.readOctstr err check) DecodeNote.Checked := by
  refine (Records.quiet _).bind fun _ => (Records.quiet _).bind fun len => ?_
  cases hlen : check len with
  | some err => exact Records.quiet _
  | none =>
    have hnote : Records (note (.copy field len) : MsgJournal Unit) (pure ())
        DecodeNote.Checked := Records.note (h len hlen)
    exact hnote.after (Records.quiet _)

/-- A name. -/
theorem readName_records {field : CopiedField} {err err' : SnmpErrCode} {size : UInt32}
    (h : ∀ len, field.Admits len ↔ AdmitsName size len) :
    Records (readOctstr field err (checkName size err'))
      (SmithSnmp.readOctstr err (checkName size err')) DecodeNote.Checked :=
  readOctstr_records fun len hlen => (h len).mpr (checkName_eq_none_iff.mp hlen)

/-- Parameters of a fixed length. -/
theorem readPara_records {field : CopiedField} {err err' : SnmpErrCode} {size : UInt32}
    (h : ∀ len, field.Admits len ↔ AdmitsPara size len) :
    Records (readOctstr field err (checkPara size err'))
      (SmithSnmp.readOctstr err (checkPara size err')) DecodeNote.Checked :=
  readOctstr_records fun len hlen => (h len).mpr (checkPara_eq_none_iff.mp hlen)

/-- The header of the PDU has three integers. -/
theorem pduHdrParse_records (sdg : SnmpDatagram) :
    Records (pduHdrParse sdg) (SmithSnmp.pduHdrParse sdg) DecodeNote.Checked :=
  (Records.quiet _).bind fun _ => (Records.quiet _).bind fun _ => (readInt_records _).bind fun _ =>
    (readInt_records _).bind fun _ => (readInt_records _).bind fun _ => Records.pure _

/-- The global data has three integers and the flags. -/
theorem globalDataDecode_records (sdg : SnmpDatagram) :
    Records (globalDataDecode sdg) (SmithSnmp.globalDataDecode sdg) DecodeNote.Checked := by
  have hflags : Records (readOctstr .msgFlags .globalFlags fun _ => none)
      (SmithSnmp.readOctstr .globalFlags fun _ => none) DecodeNote.Checked :=
    readOctstr_records fun _ _ => trivial
  exact (readInt_records _).bind fun _ => (readInt_records _).bind fun _ => hflags.bind fun _ =>
    (Records.quiet _).bind fun _ => (readInt_records _).bind fun _ => Records.pure _

/-- The security parameters up to the user name. -/
theorem usmDecode_records (sdg : SnmpDatagram) :
    Records (usmDecode sdg) (SmithSnmp.usmDecode sdg) DecodeNote.Checked :=
  (Records.quiet _).bind fun _ => (Records.quiet _).bind fun _ =>
    (readName_records fun _ => Iff.rfl).bind fun _ => (readInt_records _).bind fun _ =>
      (readInt_records _).bind fun _ => (readName_records fun _ => Iff.rfl).bind fun _ =>
        Records.pure _

/-- All of the security parameters. -/
theorem securityParameterDecode_records (sdg : SnmpDatagram) :
    Records (securityParameterDecode sdg) (SmithSnmp.securityParameterDecode sdg)
      DecodeNote.Checked := by
  have hauth : Records readAuthPara SmithSnmp.readAuthPara DecodeNote.Checked :=
    (readPara_records fun _ => Iff.rfl).bind fun _ => (Records.quiet _).bind fun _ =>
      (Records.quiet _).bind fun _ => Records.pure _
  have hpriv : Records readPrivPara SmithSnmp.readPrivPara DecodeNote.Checked :=
    readPara_records fun _ => Iff.rfl
  exact (usmDecode_records _).bind fun _ => hauth.bind fun _ => hpriv.bind fun _ => Records.pure _

/-- The context name and the PDU. -/
theorem bodyDecode_records (sdg : SnmpDatagram) :
    Records (bodyDecode sdg) (SmithSnmp.bodyDecode sdg) DecodeNote.Checked :=
  (readName_records fun _ => Iff.rfl).bind fun _ => (pduHdrParse_records _).bind fun _ =>
    Records.quiet _

/-- Messages of all versions. -/
theorem snmpDecode_records (cr : Crypto) (users : List MibUser) :
    Records (snmpDecode cr users) (SmithSnmp.snmpDecode cr users) DecodeNote.Checked := by
  have hheader : ∀ sdg,
      Records (headerDecode sdg) (SmithSnmp.headerDecode sdg) DecodeNote.Checked := fun _ =>
    (Records.quiet _).bind fun _ => (globalDataDecode_records _).bind fun _ =>
      securityParameterDecode_records _
  have hscope : ∀ sdg,
      Records (scopeDecode sdg) (SmithSnmp.scopeDecode sdg) DecodeNote.Checked := fun _ =>
    (Records.quiet _).bind fun _ => (readName_records fun _ => Iff.rfl).bind fun _ =>
      Records.pure _
  exact (Records.quiet _).bind fun _ => (readInt_records _).bind fun _ =>
    Records.ite
      ((hheader _).bind fun _ => (Records.quiet _).bind fun _ => (hscope _).bind fun _ =>
        bodyDecode_records _)
      (bodyDecode_records _)

/-- The checks of `snmp_recv` in front note nothing. -/
theorem message_records (cr : Crypto) (users : List MibUser) (len : ℕ) :
    Records (do quiet (checkMessage len); snmpDecode cr users)
      (do checkMessage len; SmithSnmp.snmpDecode cr users) DecodeNote.Checked :=
  (Records.quiet _).bind fun _ => snmpDecode_records cr users

/-- **Without the journal it is the decoder.** -/
theorem snmpRecv_does (cr : Crypto) (users : List MibUser) (b : List UInt8) :
    (snmpRecv cr users b).2 = SmithSnmp.snmpRecv cr users b :=
  congrArg decoded ((message_records cr users b.length).does ⟨b, 0⟩)

/-- **What is handed on is what the checks let through.** -/
theorem snmpRecv_checked {cr : Crypto} {users : List MibUser} {b : List UInt8} {e : DecodeNote}
    (he : e ∈ (snmpRecv cr users b).1) : e.Checked :=
  (message_records cr users b.length).notes ⟨b, 0⟩ e he

end Noted

/-! ### Fields that fit -/

/-- The octets fit in the field, and behind a name there is room for its end. -/
def CopiedField.Fits (field : CopiedField) (len : UInt32) : Prop :=
  len.toNat ≤ field.size ∧
    (field = .userName ∨ field = .contextName → len.toNat + 1 ≤ field.size)

/-- Whether octets fit can be computed. -/
instance CopiedField.decidableFits (field : CopiedField) (len : UInt32) :
    Decidable (field.Fits len) :=
  inferInstanceAs (Decidable (_ ∧ _))

/-- In 32 bits the greatest length passes as well. -/
theorem admitsName_iff {size len : UInt32} :
    AdmitsName size len ↔ len.toNat + 1 ≤ size.toNat ∨ len = 0xffffffff := by
  have hmax : len = 0xffffffff ↔ len.toNat = 2 ^ 32 - 1 :=
    ⟨fun h => by rw [h]; rfl, fun h => UInt32.toNat_inj.mp (by rw [h]; rfl)⟩
  have hlen := len.toNat_lt
  rw [AdmitsName, hmax, UInt32.lt_iff_toNat_lt, UInt32.toNat_add, UInt32.toNat_one]
  omega

/-- Parameters are not longer than their field. -/
theorem AdmitsPara.toNat_le {size len : UInt32} (h : AdmitsPara size len) :
    len.toNat ≤ size.toNat := by
  rcases h with rfl | rfl
  · exact Nat.zero_le _
  · exact Nat.le_refl _

/-- What fits, of what the checks let through. -/
theorem CopiedField.Admits.fits_iff {field : CopiedField} {len : UInt32} (h : field.Admits len) :
    field.Fits len ↔ (field = .msgFlags → len.toNat ≤ 1) ∧ len ≠ 0xffffffff := by
  have hmax : len = 0xffffffff → len.toNat = 2 ^ 32 - 1 := fun h => by rw [h]; rfl
  cases field with
  | msgFlags =>
    simp only [Fits, size, reduceCtorEq, or_self, false_imp_iff, and_true, forall_const]
    refine ⟨fun hle => ⟨hle, fun heq => ?_⟩, And.left⟩
    have := hmax heq
    omega
  | authPara | privPara =>
    have hle := AdmitsPara.toNat_le h
    simp only [Fits, size, reduceCtorEq, or_self, false_imp_iff, and_true, true_and]
    refine iff_of_true hle fun heq => ?_
    have := hmax heq
    have hsize : snmpMsgAuthParaLen.toNat = 12 ∧ snmpMsgEncryptParaLen.toNat = 8 := ⟨rfl, rfl⟩
    omega
  | engineId | userName | contextId | contextName =>
    have hsize : (33 : UInt32).toNat = 33 ∧ (41 : UInt32).toNat = 41 := ⟨rfl, rfl⟩
    simp only [Fits, size, reduceCtorEq, or_self, or_true, true_or, false_imp_iff, true_imp_iff,
      and_true, true_and]
    rcases admitsName_iff.mp h with hle | heq
    · exact iff_of_true (by omega) fun heq => by have := hmax heq; omega
    · have := hmax heq
      exact iff_of_false (by omega) (not_not.mpr heq)

/-- **The copied fields.** For every message, all octet strings that the decoder copies to fields of
the datagram fit in them if and only if `msg_flags` gets one octet at most and none of the lengths
is the greatest number of 32 bits. -/
theorem copiedFields_fit_iff (cr : Crypto) (users : List MibUser) (b : List UInt8) :
    (∀ field len, DecodeNote.copy field len ∈ (Noted.snmpRecv cr users b).1 → field.Fits len) ↔
      ∀ field len, DecodeNote.copy field len ∈ (Noted.snmpRecv cr users b).1 →
        (field = .msgFlags → len.toNat ≤ 1) ∧ len ≠ 0xffffffff :=
  forall_congr' fun _ => forall_congr' fun _ => forall_congr' fun he =>
    CopiedField.Admits.fits_iff (Noted.snmpRecv_checked he)

/-- A well-formed request of version 3 with two octets of flags is accepted, and a message of eleven
octets has all of the memory copied to the context name. -/
theorem copiedFields_overflow :
    let flags : List UInt8 :=
      [0x30, 65, 2, 1, 3, 0x30, 14, 2, 1, 1, 2, 2, 5, 220, 4, 2, 0, 0, 2, 1, 3,
        4, 17, 0x30, 15, 4, 0, 2, 1, 0, 2, 1, 0, 4, 1, 0x75, 4, 0, 4, 0,
        0x30, 25, 4, 0, 4, 0, 0xa0, 19, 2, 1, 1, 2, 1, 0, 2, 1, 0,
        0x30, 8, 0x30, 6, 6, 2, 0x2b, 0, 5, 0]
    let name : List UInt8 := [0x30, 9, 2, 1, 1, 4, 0x84, 0xff, 0xff, 0xff, 0xff]
    ((snmpRecv plainCrypto [] flags).isOk ∧
      DecodeNote.copy .msgFlags 2 ∈ (Noted.snmpRecv plainCrypto [] flags).1 ∧
        ¬ CopiedField.msgFlags.Fits 2) ∧
    DecodeNote.copy .contextName 0xffffffff ∈ (Noted.snmpRecv plainCrypto [] name).1 ∧
      ¬ CopiedField.contextName.Fits 0xffffffff := by
  decide +kernel

end SmithSnmp
