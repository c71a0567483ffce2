import SmithSnmp.MsgOut
import SmithSnmp.Walk
import SmithSnmp.Words

/-!
# Well-Formed Responses

Whether the lengths that `asn1_encode` declares are those of what is then written. The size
pass takes the lengths of integers from the request, while the values are encoded anew; it
takes the lengths of OIDs modulo 256; it counts the header of a cipher text by the flag of
encryption alone, which `snmp_response` writes only for an authenticated known user; and it
adds up in 32 bits. Before that the values have to lie in the memory that was allocated for them,
and the size of an OID as a value is counted modulo 256, too.

## Main results

* `Measured.messageTree_summed`: apart from that the two passes agree: every constructed
  value declares what the size pass counts for its parts.
* `snmpResponse_wellFormed_iff`: the response to an accepted message is well formed if and
  only if none of these things goes wrong.
-/

namespace SmithSnmp

open List Lib Tlv Traced

variable {σ : Type}

variable {vb : VarBind} {sdg sdg' : SnmpDatagram} {vbs : List Tlv} {cr : Crypto} {b : List UInt8}

/-! ### Well-formedness -/

/-- The number of octets written is `send_len`, and every declared length, of the message
and of the values in it, is the number of octets written for its content. -/
structure SendBuf.WellFormed (buf : SendBuf) : Prop where
  /-- as many octets as are sent -/
  written : buf.bytes.length = buf.sendLen.toNat
  /-- the length of the message -/
  message : buf.content.length = buf.sdg.dataLen.toNat
  /-- the lengths of the values in it, also of those under a cipher text -/
  values : ExactList berLengthEnc (headerTlvs buf.sdg ++ buf.plain ++ buf.cipher.toList)

/-- The response is written and well formed. -/
def EncodesWellFormed (cr : Crypto) (rnd : UInt32 × UInt32) (sdg : SnmpDatagram) : Prop :=
  ∃ buf, snmpResponse cr rnd sdg = some buf ∧ buf.WellFormed

/-- The response is built in the memory that was allocated for its varbinds, and it is written and
well formed. -/
def RespondsWellFormed (cr : Crypto) (rnd : UInt32 × UInt32) (sdg : SnmpDatagram) : Prop :=
  sdg.InRoom ∧ EncodesWellFormed cr rnd sdg

/-! ### What can go wrong -/

/-- The length of an integer is the one `ber_value_enc_try` gives. -/
def Echoes (len : UInt32) (value : Int32) : Prop := len = UInt32.ofNat (berIntEncTry value)

instance (len : UInt32) (value : Int32) : Decidable (Echoes len value) :=
  inferInstanceAs (Decidable (_ = _))

/-- The integer lengths of a datagram are those of its integers. -/
structure EchoesLengths (sdg : SnmpDatagram) : Prop where
  version : Echoes sdg.verLen sdg.version
  reqId : Echoes sdg.pduHdr.reqIdLen sdg.pduHdr.reqId
  errStat : Echoes sdg.pduHdr.errStatLen sdg.pduHdr.errStat
  errIdx : Echoes sdg.pduHdr.errIdxLen sdg.pduHdr.errIdx
  msgId : 3 ≤ sdg.version → Echoes sdg.msgIdLen sdg.msgId
  msgSize : 3 ≤ sdg.version → Echoes sdg.msgSizeLen sdg.msgMaxSize
  msgModel : 3 ≤ sdg.version → Echoes sdg.msgModelLen sdg.msgSecurityModel
  engineBoots : 3 ≤ sdg.version → Echoes sdg.engineBootsLen sdg.engineBoots
  engineTime : 3 ≤ sdg.version → Echoes sdg.engineTimeLen sdg.engineTime

/-- The header of a cipher text is counted. -/
def countsCipher (sdg : SnmpDatagram) : Bool :=
  3 ≤ sdg.version && sdg.hasFlag snmpSecurFlagEncrypt

theorem version_of_countsCipher {sdg : SnmpDatagram} (h : countsCipher sdg = true) :
    3 ≤ sdg.version :=
  of_decide_eq_true (Bool.and_eq_true_iff.mp h).1

/-- A response that is to be encrypted can be: it is authenticated, and its user has a
privacy algorithm. -/
def EncryptsCounted (sdg : SnmpDatagram) : Prop :=
  countsCipher sdg = true → sdg.hasFlag snmpSecurFlagAuth = true ∧
    ∃ user, sdg.user = some user ∧ user.secrets.privMode = snmpUserEncryptAes

/-- The varbind as `varBindTlv` writes it. -/
def varBindTree (vb : VarBind) : Tlv :=
  .cons asn1TagSeq vb.vbLen
    [.prim asn1TagObjid (UInt32.ofNat ((berOidEncTry vb.oid).getD 0)) (berOidEnc vb.oid),
      .prim vb.valueType (UInt32.ofNat vb.value.length) vb.value]

/-- The values behind the header as the size pass counts them: a cipher text is taken for a
constructed value with the plain text as its content. -/
def scopeTrees (sdg : SnmpDatagram) (vbs : List Tlv) : List Tlv :=
  if countsCipher sdg then [.cons asn1TagOctstr (snmpScopePduLen sdg) (scopeTlvs sdg vbs)]
  else scopeTlvs sdg vbs

/-- The message as the size pass counts it. -/
def messageTree (sdg : SnmpDatagram) (vbs : List Tlv) : Tlv :=
  .cons asn1TagSeq sdg.dataLen (headerTlvs sdg ++ scopeTrees sdg vbs)

/-- The response to a datagram as the size pass counts it. -/
def responseTree (sdg : SnmpDatagram) : Tlv :=
  messageTree (asn1EncodeTry sdg) (sdg.vbOutList.map varBindTree)

/-- The size of the response in unbounded arithmetic. -/
def responseSize (sdg : SnmpDatagram) : ℕ := (responseTree sdg).size berLengthEnc

/-! ### The size pass -/

/-- The size pass counts a tag, a length and the content. -/
theorem spanOf_eq_tlvLen (len : UInt32) : spanOf berLengthEnc len = tlvLen len := by
  rw [spanOf, berLengthEnc_length, tlvLen]

/-- What `var_bind` lengths the request processors keep: every varbind declares the sum over
its OID and its value, and the list the sum over the varbinds. -/
structure Sized (sdg : SnmpDatagram) : Prop where
  oids : ∀ vb ∈ sdg.vbOutList, (berOidEncTry vb.oid).isSome
  vbs : ∀ vb ∈ sdg.vbOutList, (varBindTree vb).Summed berLengthEnc
  list : sdg.vbListLen = total berLengthEnc (sdg.vbOutList.map varBindTree)

theorem varBindTlv_eq (h : (berOidEncTry vb.oid).isSome) :
    varBindTlv vb = some (varBindTree vb) := by
  obtain ⟨n, hn⟩ := Option.isSome_iff_exists.mp h
  rw [varBindTlv, varBindTree, hn]
  rfl

/-- All varbinds of a sized datagram can be written. -/
theorem mapM_varBindTlv {vbs : List VarBind} (h : ∀ vb ∈ vbs, (berOidEncTry vb.oid).isSome) :
    vbs.mapM varBindTlv = some (vbs.map varBindTree) := by
  induction vbs with
  | nil => rfl
  | cons vb vbs ih =>
    rw [mapM_cons, varBindTlv_eq (h vb (by simp)),
      ih fun vb' hmem => h vb' (mem_cons_of_mem vb hmem)]
    rfl

/-- The lengths of a datagram are those of the size pass. -/
structure Measured (sdg : SnmpDatagram) : Prop where
  pdu : sdg.pduHdr.pduLen = tlvLen sdg.vbListLen + tlvLen sdg.pduHdr.reqIdLen +
    tlvLen sdg.pduHdr.errStatLen + tlvLen sdg.pduHdr.errIdxLen
  scope : sdg.scopeLen = tlvLen sdg.pduHdr.pduLen + octstrLen sdg.contextName +
    if 3 ≤ sdg.version then octstrLen snmpv3EngineId else 0
  globalData : 3 ≤ sdg.version → sdg.msgLen = globalDataEncodeTry sdg
  securPara : 3 ≤ sdg.version → sdg.securParaLen = securityParameterEncodeTry sdg
  securStr : 3 ≤ sdg.version → sdg.securStrLen = tlvLen sdg.securParaLen
  dataV3 : 3 ≤ sdg.version → sdg.dataLen =
    tlvLen sdg.msgLen + tlvLen sdg.securStrLen + tlvLen sdg.scopeLen +
      (if countsCipher sdg then 1 + UInt32.ofNat (berLengthEncTry (snmpScopePduLen sdg))
        else 0) + tlvLen sdg.verLen
  data : ¬3 ≤ sdg.version → sdg.dataLen = sdg.scopeLen + tlvLen sdg.verLen

theorem asn1EncodeTry_measured (sdg : SnmpDatagram) : Measured (asn1EncodeTry sdg) := by
  by_cases hv : 3 ≤ sdg.version
  · constructor
    case dataV3 =>
      intro _
      simp only [asn1EncodeTry, asn1EncodeTryV3, hv, if_true, countsCipher, decide_true,
        Bool.true_and, SnmpDatagram.hasFlag, snmpScopePduLen, tlvLen]
      ac_rfl
    all_goals simp [asn1EncodeTry, asn1EncodeTryV3, hv, globalDataEncodeTry,
      securityParameterEncodeTry]
  · constructor <;> simp [asn1EncodeTry, hv]

theorem Measured.replace (h : Measured sdg) {auth priv : List UInt8}
    (ha : auth.length = sdg.authPara.length) (hp : priv.length = sdg.privPara.length) :
    Measured { sdg with authPara := auth, privPara := priv } where
  pdu := h.pdu
  scope := h.scope
  globalData := h.globalData
  securPara hv := by
    rw [h.securPara hv]
    simp only [securityParameterEncodeTry, octstrLen, ha, hp]
  securStr := h.securStr
  dataV3 := h.dataV3
  data := h.data

theorem Measured.headerTlvs_summed (h : Measured sdg) :
    SummedList berLengthEnc (headerTlvs sdg) := by
  refine ⟨trivial, ?_⟩
  split
  · next hv =>
      refine ⟨⟨?_, trivial, trivial, trivial, trivial, trivial⟩, ⟨?_, ⟨?_, ?_⟩, trivial⟩, trivial⟩
      · rw [h.globalData hv]
        simp only [globalDataEncodeTry, total, spanOf_eq_tlvLen, intTlv, octstrTlv, Tlv.len,
          octstrLen]
        ac_rfl
      · rw [h.securStr hv]
        simp only [total, spanOf_eq_tlvLen, securityParameterEncode, Tlv.len, UInt32.add_zero]
      · rw [h.securPara hv]
        simp only [securityParameterEncodeTry, total, spanOf_eq_tlvLen, intTlv, octstrTlv,
          Tlv.len, octstrLen]
        ac_rfl
      · exact ⟨trivial, trivial, trivial, trivial, trivial, trivial, trivial⟩
  · trivial

theorem Measured.pduTlv_summed (h : Measured sdg)
    (hlist : sdg.vbListLen = total berLengthEnc vbs) (hvbs : SummedList berLengthEnc vbs) :
    (pduTlv sdg vbs).Summed berLengthEnc := by
  refine ⟨?_, trivial, trivial, trivial, ⟨hlist, hvbs⟩, trivial⟩
  rw [h.pdu]
  simp only [total, spanOf_eq_tlvLen, intTlv, Tlv.len]
  ac_rfl

/-- The values behind the header are summed up. -/
theorem Measured.scopeTlvs_summed (h : Measured sdg)
    (hlist : sdg.vbListLen = total berLengthEnc vbs) (hvbs : SummedList berLengthEnc vbs) :
    SummedList berLengthEnc (scopeTlvs sdg vbs) := by
  have hpdu := h.pduTlv_summed hlist hvbs
  rw [scopeTlvs]
  split
  · next hv =>
      refine ⟨⟨?_, trivial, trivial, hpdu, trivial⟩, trivial⟩
      rw [h.scope, if_pos hv]
      simp only [total, spanOf_eq_tlvLen, octstrTlv, pduTlv, Tlv.len, octstrLen]
      ac_rfl
  · exact ⟨trivial, hpdu, trivial⟩

/-- What the size pass counts behind the header, without the header of a cipher text. -/
theorem Measured.total_scopeTlvs (h : Measured sdg) (vbs : List Tlv) :
    total berLengthEnc (scopeTlvs sdg vbs) =
      if 3 ≤ sdg.version then tlvLen sdg.scopeLen else sdg.scopeLen := by
  rw [scopeTlvs]
  split
  · simp only [total, spanOf_eq_tlvLen, Tlv.len, UInt32.add_zero]
  · next hv =>
      rw [h.scope, if_neg hv]
      simp only [total, spanOf_eq_tlvLen, octstrTlv, pduTlv, Tlv.len, octstrLen]
      ac_rfl

/-- What the size pass counts for the values of the header. -/
theorem total_headerTlvs (sdg : SnmpDatagram) :
    total berLengthEnc (headerTlvs sdg) = tlvLen sdg.verLen +
      if 3 ≤ sdg.version then tlvLen sdg.msgLen + tlvLen sdg.securStrLen else 0 := by
  rw [headerTlvs, total, spanOf_eq_tlvLen, intTlv, Tlv.len]
  split
  · simp only [headerTlvsV3, total, spanOf_eq_tlvLen, globalDataEncode, Tlv.len,
      UInt32.add_zero]
  · rfl

/-- Every constructed value of a measured message declares what the size pass counts for its
parts. -/
theorem Measured.messageTree_summed (h : Measured sdg)
    (hlist : sdg.vbListLen = total berLengthEnc vbs) (hvbs : SummedList berLengthEnc vbs) :
    (messageTree sdg vbs).Summed berLengthEnc := by
  have hscope := h.scopeTlvs_summed hlist hvbs
  refine (summed_cons berLengthEnc).mpr
    ⟨?_, forallList_append.mpr ⟨h.headerTlvs_summed, ?_⟩⟩
  · rw [total_append, total_headerTlvs, scopeTrees]
    by_cases hv : 3 ≤ sdg.version
    · rw [h.dataV3 hv, if_pos hv]
      split
      · simp only [total, spanOf_eq_tlvLen, Tlv.len, tlvLen, snmpScopePduLen]
        ac_rfl
      · rw [h.total_scopeTlvs, if_pos hv]
        ac_rfl
    · have hc : countsCipher sdg = false := by simp [countsCipher, hv]
      rw [h.data hv, if_neg hv, hc, if_neg Bool.false_ne_true, h.total_scopeTlvs, if_neg hv]
      ac_rfl
  · rw [scopeTrees]
    split
    · next hc =>
        have hv := version_of_countsCipher hc
        refine ⟨(summed_cons berLengthEnc).mpr ⟨?_, hscope⟩, trivial⟩
        rw [h.total_scopeTlvs, if_pos hv]
        rfl
    · exact hscope

/-! ### Messages without a cipher text -/

theorem messageTree_bytes (hc : countsCipher sdg = false) :
    (messageTree sdg vbs).bytes berLengthEnc = SendBuf.bytes ⟨sdg, scopeTlvs sdg vbs, none⟩ := by
  simp [messageTree, scopeTrees, hc, Tlv.bytes, SendBuf.bytes, SendBuf.content, SendBuf.body]

theorem wellFormed_plain_iff (hc : countsCipher sdg = false) :
    SendBuf.WellFormed ⟨sdg, scopeTlvs sdg vbs, none⟩ ↔
      (messageTree sdg vbs).Exact berLengthEnc ∧
        ((messageTree sdg vbs).bytes berLengthEnc).length < 2 ^ 32 := by
  have hbytes : (messageTree sdg vbs).bytes berLengthEnc = _ := messageTree_bytes hc
  have hexact : (messageTree sdg vbs).Exact berLengthEnc ↔
      (SendBuf.content ⟨sdg, scopeTlvs sdg vbs, none⟩).length = sdg.dataLen.toNat ∧
        ExactList berLengthEnc (headerTlvs sdg ++ scopeTlvs sdg vbs) := by
    simp [messageTree, scopeTrees, hc, Tlv.Exact, Tlv.Forall, ExactList, SendBuf.content,
      SendBuf.body]
  have hsend : spanOf berLengthEnc (messageTree sdg vbs).len =
      SendBuf.sendLen ⟨sdg, scopeTlvs sdg vbs, none⟩ := spanOf_eq_tlvLen _
  constructor
  · rintro ⟨hwritten, hmessage, hvalues⟩
    have hx := hexact.mpr ⟨hmessage, by simpa using hvalues⟩
    refine ⟨hx, (bytes_length_eq_iff hx).mp ?_⟩
    rw [hbytes, hwritten, hsend]
  · rintro ⟨hx, hlt⟩
    have hlen := (bytes_length_eq_iff hx).mpr hlt
    rw [hbytes, hsend] at hlen
    exact ⟨hlen, (hexact.mp hx).1, by simpa using (hexact.mp hx).2⟩

/-- A message without a cipher text that is counted as such is too short. -/
theorem not_wellFormed_of_counted (h : Measured sdg) (hc : countsCipher sdg = true) :
    ¬SendBuf.WellFormed ⟨sdg, scopeTlvs sdg vbs, none⟩ := by
  rintro ⟨-, hmessage, hvalues⟩
  have hv := version_of_countsCipher hc
  have htotal := total_eq hvalues
  have hcontent : (SendBuf.content ⟨sdg, scopeTlvs sdg vbs, none⟩).length =
      (bytesList berLengthEnc (headerTlvs sdg ++ scopeTlvs sdg vbs)).length := by
    simp [SendBuf.content, SendBuf.body]
  simp only [Option.toList_none, append_nil] at htotal
  rw [← hcontent, hmessage, UInt32.ofNat_toNat, total_append, total_headerTlvs,
    h.total_scopeTlvs, if_pos hv, if_pos hv, h.dataV3 hv, hc, if_pos rfl] at htotal
  obtain ⟨-, hle⟩ := berLengthEncTry_bounds (snmpScopePduLen sdg)
  have hzero : 1 + UInt32.ofNat (berLengthEncTry (snmpScopePduLen sdg)) = 0 := by
    grind
  have hnat := congrArg UInt32.toNat hzero
  rw [UInt32.toNat_add, UInt32.toNat_ofNat'] at hnat
  simp at hnat
  omega

/-! ### Messages with a cipher text -/

section Cipher

variable {sdg : SnmpDatagram} {vbs : List Tlv} {cipher : List UInt8}

/-- The buffer with a cipher text over the plain text. -/
def cipherBuf (sdg : SnmpDatagram) (vbs : List Tlv) (cipher : List UInt8) : SendBuf :=
  ⟨sdg, scopeTlvs sdg vbs, some (.prim asn1TagOctstr (snmpScopePduLen sdg) cipher)⟩

theorem cipherBuf_content_length (hc : countsCipher sdg = true)
    (hcipher : cipher.length = (snmpScopePduLen sdg).toNat)
    (hplain : (bytesList berLengthEnc (scopeTlvs sdg vbs)).length =
      (snmpScopePduLen sdg).toNat) :
    (cipherBuf sdg vbs cipher).content.length =
      (bytesList berLengthEnc (headerTlvs sdg ++ scopeTrees sdg vbs)).length := by
  simp only [SendBuf.content, SendBuf.body, cipherBuf, pokeBytes, scopeTrees, hc, if_true,
    bytesList_append, bytesList_cons, bytesList_nil, Tlv.bytes, length_append,
    length_drop, length_nil, hcipher, hplain]
  omega

theorem Measured.plain_length (h : Measured sdg) (hc : countsCipher sdg = true)
    (hvalues : ExactList berLengthEnc (scopeTlvs sdg vbs))
    (hlt : (bytesList berLengthEnc (scopeTlvs sdg vbs)).length < 2 ^ 32) :
    (bytesList berLengthEnc (scopeTlvs sdg vbs)).length = (snmpScopePduLen sdg).toNat := by
  have hv := version_of_countsCipher hc
  have htotal := total_eq hvalues
  rw [h.total_scopeTlvs, if_pos hv] at htotal
  rw [snmpScopePduLen, htotal, UInt32.toNat_ofNat_of_lt' hlt]

theorem messageTree_exact_iff (hc : countsCipher sdg = true) (vbs : List Tlv) :
    (messageTree sdg vbs).Exact berLengthEnc ↔
      (bytesList berLengthEnc (headerTlvs sdg ++ scopeTrees sdg vbs)).length =
          sdg.dataLen.toNat ∧
        ExactList berLengthEnc (headerTlvs sdg) ∧
        (bytesList berLengthEnc (scopeTlvs sdg vbs)).length = (snmpScopePduLen sdg).toNat ∧
        ExactList berLengthEnc (scopeTlvs sdg vbs) := by
  simp [messageTree, exact_cons, ExactList, forallList_append, scopeTrees, hc,
    Tlv.ForallList, Tlv.Forall]

theorem wellFormed_cipher_iff (h : Measured sdg) (hc : countsCipher sdg = true)
    (hcipher : cipher.length = (snmpScopePduLen sdg).toNat) :
    (cipherBuf sdg vbs cipher).WellFormed ↔
      (messageTree sdg vbs).Exact berLengthEnc ∧
        ((messageTree sdg vbs).bytes berLengthEnc).length < 2 ^ 32 := by
  have hexact := messageTree_exact_iff hc vbs
  have hvalues : ExactList berLengthEnc (headerTlvs sdg ++ scopeTlvs sdg vbs ++
        [.prim asn1TagOctstr (snmpScopePduLen sdg) cipher]) ↔
      ExactList berLengthEnc (headerTlvs sdg) ∧
        ExactList berLengthEnc (scopeTlvs sdg vbs) := by
    simp [ExactList, forallList_append, Tlv.ForallList, Tlv.Forall, hcipher]
  have hbytes : (messageTree sdg vbs).bytes berLengthEnc =
      header berLengthEnc asn1TagSeq sdg.dataLen ++
        bytesList berLengthEnc (headerTlvs sdg ++ scopeTrees sdg vbs) := by
    rw [messageTree, Tlv.bytes]
  have hsend : spanOf berLengthEnc (messageTree sdg vbs).len =
      (cipherBuf sdg vbs cipher).sendLen := spanOf_eq_tlvLen _
  have hlength : (bytesList berLengthEnc (scopeTlvs sdg vbs)).length =
        (snmpScopePduLen sdg).toNat →
      (cipherBuf sdg vbs cipher).bytes.length =
        ((messageTree sdg vbs).bytes berLengthEnc).length := by
    intro hplain
    rw [hbytes, SendBuf.bytes, length_append, length_append,
      cipherBuf_content_length hc hcipher hplain]
    rfl
  constructor
  · rintro ⟨hwritten, hmessage, hv⟩
    obtain ⟨hhdr, hscope⟩ := hvalues.mp hv
    -- the cipher text is written over the plain text, which is part of the content
    have hlt : (bytesList berLengthEnc (scopeTlvs sdg vbs)).length < 2 ^ 32 := by
      have hle := sdg.dataLen.toNat_lt
      have hcontent : (cipherBuf sdg vbs cipher).content.length = sdg.dataLen.toNat := hmessage
      simp only [SendBuf.content, SendBuf.body, cipherBuf, pokeBytes, length_append,
        length_drop] at hcontent
      omega
    have hplain := h.plain_length hc hscope hlt
    have hx := hexact.mpr ⟨by rw [← cipherBuf_content_length hc hcipher hplain]; exact hmessage,
      hhdr, hplain, hscope⟩
    refine ⟨hx, (bytes_length_eq_iff hx).mp ?_⟩
    rw [← hlength hplain, hwritten, hsend]
  · rintro ⟨hx, hlt⟩
    obtain ⟨hcontent, hhdr, hplain, hscope⟩ := hexact.mp hx
    have hlen := (bytes_length_eq_iff hx).mpr hlt
    rw [← hlength hplain, hsend] at hlen
    refine ⟨hlen, ?_, hvalues.mpr ⟨hhdr, hscope⟩⟩
    rw [cipherBuf_content_length hc hcipher hplain]
    exact hcontent

end Cipher

/-! ### Primitive values -/

theorem intTlv_counted {len : UInt32} {value : Int32} :
    (intTlv len value).Counted ↔ Echoes len value := by
  change len = UInt32.ofNat (berIntEnc value).length ↔ _
  rw [berIntEnc_length, Echoes]

/-- An octet string declares its length. -/
theorem octstrTlv_counted (octets : List UInt8) : (octstrTlv octets).Counted := rfl

/-- The integers of the header declare their lengths. -/
theorem headerTlvs_counted :
    CountedList (headerTlvs sdg) ↔ Echoes sdg.verLen sdg.version ∧
      (3 ≤ sdg.version → Echoes sdg.msgIdLen sdg.msgId ∧ Echoes sdg.msgSizeLen sdg.msgMaxSize ∧
        Echoes sdg.msgModelLen sdg.msgSecurityModel ∧
        Echoes sdg.engineBootsLen sdg.engineBoots ∧ Echoes sdg.engineTimeLen sdg.engineTime) := by
  rw [headerTlvs, countedList_cons, intTlv_counted]
  split
  · next hv =>
      simp [hv, headerTlvsV3, globalDataEncode, securityParameterEncode, intTlv_counted,
        octstrTlv_counted, and_assoc]
  · next hv => simp [hv]

/-- The integers of the PDU declare their lengths. -/
theorem scopeTrees_counted :
    CountedList (scopeTrees sdg vbs) ↔
      (Echoes sdg.pduHdr.reqIdLen sdg.pduHdr.reqId ∧
        Echoes sdg.pduHdr.errStatLen sdg.pduHdr.errStat ∧
        Echoes sdg.pduHdr.errIdxLen sdg.pduHdr.errIdx) ∧ CountedList vbs := by
  have hpdu : (pduTlv sdg vbs).Counted ↔
      (Echoes sdg.pduHdr.reqIdLen sdg.pduHdr.reqId ∧
        Echoes sdg.pduHdr.errStatLen sdg.pduHdr.errStat ∧
        Echoes sdg.pduHdr.errIdxLen sdg.pduHdr.errIdx) ∧ CountedList vbs := by
    simp [pduTlv, intTlv_counted, and_assoc]
  have hscope : CountedList (scopeTlvs sdg vbs) ↔ (pduTlv sdg vbs).Counted := by
    rw [scopeTlvs]
    split <;> simp [octstrTlv_counted]
  rw [scopeTrees, ← hpdu, ← hscope]
  split <;> simp

theorem varBindTree_counted (h : (berOidEncTry vb.oid).isSome) :
    (varBindTree vb).Counted ↔ (berOidEnc vb.oid).length ≤ 255 := by
  obtain ⟨n, hn⟩ := Option.isSome_iff_exists.mp h
  have hle := berOidEnc_length_le h
  have hn' := berOidEncTry_eq hn
  have hcounted : (varBindTree vb).Counted ↔
      UInt32.ofNat n = UInt32.ofNat (berOidEnc vb.oid).length := by
    simp [varBindTree, hn]
  rw [hcounted, ← UInt32.toNat_inj, UInt32.toNat_ofNat', UInt32.toNat_ofNat']
  omega

/-- The primitive values of a message declare their lengths when the integers echo theirs and
the OIDs are short. -/
theorem messageTree_counted (h : ∀ vb ∈ sdg.vbOutList, (berOidEncTry vb.oid).isSome) :
    (messageTree sdg (sdg.vbOutList.map varBindTree)).Counted ↔
      EchoesLengths sdg ∧ ∀ vb ∈ sdg.vbOutList, (berOidEnc vb.oid).length ≤ 255 := by
  have hvbs : CountedList (sdg.vbOutList.map varBindTree) ↔
      ∀ vb ∈ sdg.vbOutList, (berOidEnc vb.oid).length ≤ 255 := by
    refine forallList_iff.trans ?_
    rw [forall_mem_map]
    exact forall₂_congr fun vb hvb => varBindTree_counted (h vb hvb)
  have happend : CountedList
        (headerTlvs sdg ++ scopeTrees sdg (sdg.vbOutList.map varBindTree)) ↔ _ :=
    forallList_append
  rw [messageTree, counted_cons, happend]
  refine (and_congr headerTlvs_counted (scopeTrees_counted.trans (and_congr_right' hvbs))).trans ?_
  constructor
  · rintro ⟨⟨hver, hv3⟩, ⟨hreq, hstat, hidx⟩, hoids⟩
    exact ⟨⟨hver, hreq, hstat, hidx, fun hv => (hv3 hv).1, fun hv => (hv3 hv).2.1,
      fun hv => (hv3 hv).2.2.1, fun hv => (hv3 hv).2.2.2.1, fun hv => (hv3 hv).2.2.2.2⟩, hoids⟩
  · rintro ⟨he, hoids⟩
    exact ⟨⟨he.version, fun hv => ⟨he.msgId hv, he.msgSize hv, he.msgModel hv, he.engineBoots hv,
      he.engineTime hv⟩⟩, ⟨he.reqId, he.errStat, he.errIdx⟩, hoids⟩

/-! ### Parameters in the buffer -/

/-- Authentication and privacy parameters are written into the buffer in the place of
others of the same length. -/
structure SameParas (sdg sdg' : SnmpDatagram) : Prop where
  eq : sdg' = { sdg with authPara := sdg'.authPara, privPara := sdg'.privPara }
  auth : sdg'.authPara.length = sdg.authPara.length
  priv : sdg'.privPara.length = sdg.privPara.length

theorem SameParas.refl (sdg : SnmpDatagram) : SameParas sdg sdg := ⟨rfl, rfl, rfl⟩

theorem SameParas.measured (h : SameParas sdg sdg') (hm : Measured sdg) : Measured sdg' := by
  rw [h.eq]
  exact hm.replace h.auth h.priv

theorem SameParas.size_eq (h : SameParas sdg sdg') (vbs : List Tlv) :
    (messageTree sdg' vbs).size berLengthEnc = (messageTree sdg vbs).size berLengthEnc := by
  have hauth := h.auth
  have hpriv := h.priv
  have hscope : scopeTrees sdg' vbs = scopeTrees sdg vbs := by
    rw [h.eq]
    rfl
  have hheader : Tlv.sizeList berLengthEnc (headerTlvs sdg') =
      Tlv.sizeList berLengthEnc (headerTlvs sdg) := by
    rw [h.eq]
    simp only [headerTlvs]
    split
    · simp only [headerTlvsV3, Tlv.sizeList, Tlv.size, globalDataEncode, securityParameterEncode,
        octstrTlv, intTlv, hauth, hpriv]
    · rfl
  rw [messageTree, messageTree, Tlv.size, Tlv.size, sizeList_append, sizeList_append,
    hscope, hheader]

theorem SameParas.exact_iff (h : SameParas sdg sdg') (hm : Measured sdg)
    (hlist : sdg.vbListLen = total berLengthEnc vbs) (hvbs : SummedList berLengthEnc vbs) :
    ((messageTree sdg' vbs).Exact berLengthEnc ∧
        ((messageTree sdg' vbs).bytes berLengthEnc).length < 2 ^ 32) ↔
      (messageTree sdg vbs).Counted ∧ (messageTree sdg vbs).size berLengthEnc < 2 ^ 32 := by
  have hlist' : sdg'.vbListLen = Tlv.total berLengthEnc vbs := by
    rw [h.eq]
    exact hlist
  have hcounted : (messageTree sdg' vbs).Counted ↔ (messageTree sdg vbs).Counted := by
    rw [messageTree, messageTree, counted_cons, counted_cons]
    refine forallList_append.trans (Iff.trans ?_ forallList_append.symm)
    refine and_congr (headerTlvs_counted.trans (Iff.trans ?_ headerTlvs_counted.symm)) ?_
    · rw [h.eq]
    · rw [h.eq]
      exact Iff.rfl
  rw [Tlv.exact_iff ((h.measured hm).messageTree_summed hlist' hvbs), hcounted, h.size_eq]

/-! ### Protection -/

theorem protectMessage_eq (cr : Crypto) (rnd : UInt32 × UInt32) (buf : SendBuf) {user : MibUser}
    (hv : 3 ≤ buf.sdg.version) (huser : buf.sdg.user = some user)
    (hauth : buf.sdg.hasFlag snmpSecurFlagAuth = true) :
    protectMessage cr rnd buf =
      if buf.sdg.hasFlag snmpSecurFlagEncrypt then
        (snmpMsgEncrypt cr rnd user buf).map (snmpMsgSignature cr user)
      else some (snmpMsgSignature cr user buf) := by
  simp only [protectMessage, hv, if_true, huser, hauth]

theorem protectMessage_plain (cr : Crypto) (rnd : UInt32 × UInt32) (vbs : List Tlv)
    (hc : countsCipher sdg = false) :
    ∃ sdg', SameParas sdg sdg' ∧
      protectMessage cr rnd ⟨sdg, scopeTlvs sdg vbs, none⟩ =
        some ⟨sdg', scopeTlvs sdg' vbs, none⟩ := by
  by_cases hv : 3 ≤ sdg.version
  · have hflag : sdg.hasFlag snmpSecurFlagEncrypt = false := by
      simpa [countsCipher, hv] using hc
    rcases huser : sdg.user with _ | user
    · exact ⟨sdg, .refl sdg, by simp [protectMessage, hv, huser]⟩
    · by_cases hauth : sdg.hasFlag snmpSecurFlagAuth = true
      · refine ⟨(snmpMsgSignature cr user ⟨sdg, scopeTlvs sdg vbs, none⟩).sdg,
          ⟨rfl, peekBytes_length _ _, rfl⟩, ?_⟩
        rw [protectMessage_eq cr rnd ⟨sdg, _, none⟩ hv huser hauth, hflag]
        rfl
      · exact ⟨sdg, .refl sdg, by simp [protectMessage, hv, huser, hauth]⟩
  · exact ⟨sdg, .refl sdg, by simp [protectMessage, hv]⟩

/-- The cipher text of the scoped PDU. -/
def cipherOf (cr : Crypto) (rnd : UInt32 × UInt32) (user : MibUser) (sdg : SnmpDatagram)
    (vbs : List Tlv) : List UInt8 :=
  cr.aesEncrypt (user.secrets.privKey.take 16) (privIv { sdg with privPara := privSalt rnd })
    (peekBytes (bytesList berLengthEnc (scopeTlvs sdg vbs)) (snmpScopePduLen sdg).toNat)

theorem cipherOf_length (cr : Crypto) (rnd : UInt32 × UInt32) (user : MibUser)
    (sdg : SnmpDatagram) (vbs : List Tlv) :
    (cipherOf cr rnd user sdg vbs).length = (snmpScopePduLen sdg).toNat :=
  (cr.aesEncrypt_length _ _ _).trans (peekBytes_length _ _)

/-- What `snmp_msg_encrypt` leaves in the buffer. -/
theorem snmpMsgEncrypt_eq (cr : Crypto) (rnd : UInt32 × UInt32) {user : MibUser}
    (hpriv : user.secrets.privMode = snmpUserEncryptAes) (sdg : SnmpDatagram) (vbs : List Tlv) :
    snmpMsgEncrypt cr rnd user ⟨sdg, scopeTlvs sdg vbs, none⟩ = some (cipherBuf
      { sdg with privPara := peekBytes (privSalt rnd) sdg.privPara.length } vbs
      (cipherOf cr rnd user sdg vbs)) := by
  rw [snmpMsgEncrypt, if_pos hpriv]
  rfl

theorem protectMessage_cipher (cr : Crypto) (rnd : UInt32 × UInt32) (vbs : List Tlv)
    (hc : countsCipher sdg = true) (he : EncryptsCounted sdg) :
    ∃ sdg' cipher, SameParas sdg sdg' ∧ cipher.length = (snmpScopePduLen sdg').toNat ∧
      protectMessage cr rnd ⟨sdg, scopeTlvs sdg vbs, none⟩ =
        some (cipherBuf sdg' vbs cipher) := by
  obtain ⟨hv, hflag⟩ : 3 ≤ sdg.version ∧ sdg.hasFlag snmpSecurFlagEncrypt = true := by
    simpa [countsCipher] using hc
  obtain ⟨hauth, user, huser, hpriv⟩ := he hc
  refine ⟨(snmpMsgSignature cr user (cipherBuf
    { sdg with privPara := peekBytes (privSalt rnd) sdg.privPara.length } vbs
    (cipherOf cr rnd user sdg vbs))).sdg, cipherOf cr rnd user sdg vbs,
    ⟨rfl, peekBytes_length _ _, peekBytes_length _ _⟩, cipherOf_length cr rnd user sdg vbs, ?_⟩
  rw [protectMessage_eq cr rnd ⟨sdg, _, none⟩ hv huser hauth, hflag, if_pos rfl,
    snmpMsgEncrypt_eq cr rnd hpriv]
  rfl

theorem protectMessage_counted (cr : Crypto) (rnd : UInt32 × UInt32) (vbs : List Tlv)
    (hc : countsCipher sdg = true) (he : ¬EncryptsCounted sdg) :
    protectMessage cr rnd ⟨sdg, scopeTlvs sdg vbs, none⟩ = none ∨
      protectMessage cr rnd ⟨sdg, scopeTlvs sdg vbs, none⟩ =
        some ⟨sdg, scopeTlvs sdg vbs, none⟩ := by
  obtain ⟨hv, hflag⟩ : 3 ≤ sdg.version ∧ sdg.hasFlag snmpSecurFlagEncrypt = true := by
    simpa [countsCipher] using hc
  rcases huser : sdg.user with _ | user
  · exact .inr (by simp [protectMessage, hv, huser])
  · by_cases hauth : sdg.hasFlag snmpSecurFlagAuth = true
    · have hpriv : ¬user.secrets.privMode = snmpUserEncryptAes :=
        fun hpriv => he fun _ => ⟨hauth, user, huser, hpriv⟩
      left
      rw [protectMessage_eq cr rnd ⟨sdg, _, none⟩ hv huser hauth, hflag, if_pos rfl,
        snmpMsgEncrypt, if_neg hpriv]
      rfl
    · exact .inr (by simp [protectMessage, hv, huser, hauth])

/-! ### The size pass keeps the datagram -/

/-- The size pass only sets lengths. -/
theorem asn1EncodeTry_eq (sdg : SnmpDatagram) :
    asn1EncodeTry sdg = { sdg with
      dataLen := (asn1EncodeTry sdg).dataLen
      pduHdr := { sdg.pduHdr with pduLen := (asn1EncodeTry sdg).pduHdr.pduLen }
      scopeLen := (asn1EncodeTry sdg).scopeLen
      securParaLen := (asn1EncodeTry sdg).securParaLen
      securStrLen := (asn1EncodeTry sdg).securStrLen
      msgLen := (asn1EncodeTry sdg).msgLen } := by
  by_cases hv : 3 ≤ sdg.version <;> simp [asn1EncodeTry, asn1EncodeTryV3, hv]

/-- What is said about the integers does not depend on the lengths that are set. -/
theorem echoesLengths_asn1EncodeTry : EchoesLengths (asn1EncodeTry sdg) ↔ EchoesLengths sdg := by
  rw [asn1EncodeTry_eq]
  constructor
  · rintro ⟨h₁, h₂, h₃, h₄, h₅, h₆, h₇, h₈, h₉⟩
    exact ⟨h₁, h₂, h₃, h₄, h₅, h₆, h₇, h₈, h₉⟩
  · rintro ⟨h₁, h₂, h₃, h₄, h₅, h₆, h₇, h₈, h₉⟩
    exact ⟨h₁, h₂, h₃, h₄, h₅, h₆, h₇, h₈, h₉⟩

/-- Nor does whether the message can be encrypted. -/
theorem encryptsCounted_asn1EncodeTry :
    EncryptsCounted (asn1EncodeTry sdg) ↔ EncryptsCounted sdg := by
  rw [asn1EncodeTry_eq]
  exact Iff.rfl

/-- The plain response. -/
def plainBuf (sdg : SnmpDatagram) : SendBuf :=
  ⟨asn1EncodeTry sdg, scopeTlvs (asn1EncodeTry sdg) (sdg.vbOutList.map varBindTree), none⟩

theorem Sized.snmpResponse_eq (cr : Crypto) (rnd : UInt32 × UInt32) (h : Sized sdg) :
    snmpResponse cr rnd sdg = protectMessage cr rnd ⟨asn1EncodeTry sdg,
      scopeTlvs (asn1EncodeTry sdg) (sdg.vbOutList.map varBindTree), none⟩ := by
  have hout : (asn1EncodeTry sdg).vbOutList = sdg.vbOutList := by rw [asn1EncodeTry_eq]
  rw [snmpResponse, hout, mapM_varBindTlv h.oids]
  rfl

/-- The varbinds of a response declare what is counted for their parts. -/
theorem Sized.summedList (h : Sized sdg) :
    SummedList berLengthEnc (sdg.vbOutList.map varBindTree) :=
  forallList_iff.mpr (forall_mem_map.mpr h.vbs)

/-- The list of the varbinds declares what is counted for them. -/
theorem Sized.list_asn1EncodeTry (h : Sized sdg) :
    (asn1EncodeTry sdg).vbListLen =
      total berLengthEnc (sdg.vbOutList.map varBindTree) := by
  rw [asn1EncodeTry_eq]
  exact h.list

/-- Every constructed value of a response declares what is counted for its parts. -/
theorem Sized.responseTree_summed (h : Sized sdg) : (responseTree sdg).Summed berLengthEnc :=
  (asn1EncodeTry_measured sdg).messageTree_summed h.list_asn1EncodeTry h.summedList

/-- The primitive values of a response declare their lengths when the integers echo theirs
and the OIDs are short. -/
theorem Sized.responseTree_counted (h : Sized sdg) :
    (responseTree sdg).Counted ↔ EchoesLengths sdg ∧
      ∀ vb ∈ sdg.vbOutList, (berOidEnc vb.oid).length ≤ 255 := by
  have hout : (asn1EncodeTry sdg).vbOutList = sdg.vbOutList := by rw [asn1EncodeTry_eq]
  have hoids : ∀ vb ∈ (asn1EncodeTry sdg).vbOutList, (berOidEncTry vb.oid).isSome := by
    rw [hout]
    exact h.oids
  have hcounted := messageTree_counted hoids
  rwa [hout, echoesLengths_asn1EncodeTry] at hcounted

/-- **Well-formedness of a sized datagram**: nothing goes wrong. -/
theorem Sized.encodesWellFormed_iff (cr : Crypto) (rnd : UInt32 × UInt32) (h : Sized sdg) :
    EncodesWellFormed cr rnd sdg ↔
      EchoesLengths sdg ∧ (∀ vb ∈ sdg.vbOutList, (berOidEnc vb.oid).length ≤ 255) ∧
        EncryptsCounted sdg ∧ responseSize sdg < 2 ^ 32 := by
  have hm := asn1EncodeTry_measured sdg
  have hlist := h.list_asn1EncodeTry
  have hvbs := h.summedList
  have hsplit : EchoesLengths sdg ∧ (∀ vb ∈ sdg.vbOutList, (berOidEnc vb.oid).length ≤ 255) ∧
        EncryptsCounted sdg ∧ responseSize sdg < 2 ^ 32 ↔
      EncryptsCounted (asn1EncodeTry sdg) ∧
        (responseTree sdg).Counted ∧ (responseTree sdg).size berLengthEnc < 2 ^ 32 := by
    rw [h.responseTree_counted, encryptsCounted_asn1EncodeTry, responseSize]
    constructor
    · rintro ⟨hechoes, hoids, henc, hsize⟩
      exact ⟨henc, ⟨hechoes, hoids⟩, hsize⟩
    · rintro ⟨henc, ⟨hechoes, hoids⟩, hsize⟩
      exact ⟨hechoes, hoids, henc, hsize⟩
  rw [hsplit, EncodesWellFormed, h.snmpResponse_eq]
  -- a cipher text that is counted and written, one that is only counted, none
  by_cases hc : countsCipher (asn1EncodeTry sdg) = true
  · by_cases he : EncryptsCounted (asn1EncodeTry sdg)
    · obtain ⟨sdg', cipher, hsame, hlen, heq⟩ := protectMessage_cipher cr rnd _ hc he
      have hm' := hsame.measured hm
      have hc' : countsCipher sdg' = true := by
        rw [hsame.eq]
        exact hc
      rw [heq]
      simp only [Option.some.injEq, exists_eq_left']
      rw [wellFormed_cipher_iff hm' hc' hlen, hsame.exact_iff hm hlist hvbs]
      exact (and_iff_right he).symm
    · refine iff_of_false ?_ fun hall => he hall.1
      rintro ⟨buf, hbuf, hwf⟩
      rcases protectMessage_counted cr rnd _ hc he with heq | heq
      · rw [heq] at hbuf
        cases hbuf
      · rw [heq] at hbuf
        obtain rfl := Option.some.inj hbuf
        exact not_wellFormed_of_counted hm hc hwf
  · have hc' := Bool.eq_false_iff.mpr hc
    obtain ⟨sdg', hsame, heq⟩ := protectMessage_plain cr rnd _ hc'
    have hc'' : countsCipher sdg' = false := by
      rw [hsame.eq]
      exact hc'
    rw [heq]
    simp only [Option.some.injEq, exists_eq_left']
    rw [wellFormed_plain_iff hc'', hsame.exact_iff hm hlist hvbs]
    exact (and_iff_right fun hcon => absurd hcon hc).symm

/-! ### Answered messages -/

/-- The size that a read reserves for a value: OIDs are counted in a `uint8_t`. -/
def readRoom (type : UInt8) (value : List UInt8) : ℕ :=
  if type = asn1TagObjid then value.length % 256 else value.length

/-- A property of datagrams that is kept when the header of the PDU or the varbinds of the
request are set, and when a varbind is added to the response. Where there is no `set`, it may count
on the size that a read reserves. -/
structure AnswerInvariant (set : Prop) (I : SnmpDatagram → Prop) : Prop where
  header : ∀ {sdg} hdr, I sdg → I { sdg with pduHdr := hdr }
  asked : ∀ {sdg} vbs, I sdg → I { sdg with vbInList := vbs }
  add : ∀ {sdg sdg' oid type value room vb}, I sdg → (¬ set → room = readRoom type value) →
    addVarBind sdg oid type value room = some (sdg', vb) → I sdg'

namespace AnswerInvariant

variable {set : Prop} {I : SnmpDatagram → Prop} (hI : AnswerInvariant set I)

include hI

theorem answer (h : I sdg) (vbInCnt : UInt32) {type : UInt8} {value : List UInt8} {room : ℕ}
    (hroom : ¬ set → room = readRoom type value) (ret : OidSearchRes) :
    Ensures (answer sdg vbInCnt type value room ret : AgentM σ SnmpDatagram) I := by
  rw [SmithSnmp.answer]
  split
  · exact .abort
  · next sdg' vb hadd => exact .bind _ fun _ => .pure (hI.add (hI.header _ h) hroom hadd)

theorem answerRead (h : I sdg) (vbInCnt : UInt32) (ret : OidSearchRes) :
    Ensures (answerRead sdg vbInCnt ret : AgentM σ SnmpDatagram) I := by
  rw [SmithSnmp.answerRead]
  split
  · exact .abort
  · next hlen => exact hI.answer h _ (fun _ => berValueEncTry_eq hlen) _

/-- Reads keep the invariant. -/
theorem readLoop (find : SnmpDatagram → Oid → OidSearchRes → AgentM σ OidSearchRes)
    (vbs : List VarBind) (vbInCnt : UInt32) (h : I sdg) (ret : OidSearchRes) :
    Ensures (readLoop find vbs vbInCnt sdg ret) I := by
  induction vbs generalizing vbInCnt sdg ret with
  | nil => exact .pure h
  | cons vb vbs ih =>
    exact .bind _ fun _ => .bind _ fun ret => (hI.answerRead h _ ret).bind_of fun sdg hsdg =>
      ih _ hsdg ret

/-- Writes keep the invariant. -/
theorem snmpSetLoop (hset : set) (ag : Agent σ) (vbs : List VarBind) (vbInCnt : UInt32) (h : I sdg)
    (ret : OidSearchRes) : Ensures (snmpSetLoop ag vbs vbInCnt sdg ret) I := by
  induction vbs generalizing vbInCnt sdg ret with
  | nil => exact .pure h
  | cons vb vbs ih =>
    refine .bind _ fun _ => .bind _ fun ret => Ensures.bind_of (R := fun r => I r.1) ?_
      fun r hr => ih _ hr r.2
    rw [answerSet]
    split
    · exact .abort
    · exact (hI.answer h _ (fun hno => absurd hset hno) _).bind_of fun sdg hsdg => .pure hsdg

/-- A row of GETBULK keeps the invariant. -/
theorem snmpBulkgetRow (ag : Agent σ) (done vbs : List VarBind) {st : BulkState} (h : I st.sdg) :
    Ensures (snmpBulkgetRow ag done vbs st) fun st' => I st'.sdg := by
  induction vbs generalizing done st with
  | nil => exact .pure h
  | cons vb vbs ih =>
    exact .bind _ fun _ => .bind _ fun ret => (hI.answerRead h _ ret).bind_of fun sdg hsdg =>
      ih _ hsdg

/-- GETBULK keeps the invariant. -/
theorem snmpBulkgetLoop (ag : Agent σ) (repeats : ℕ) {st : BulkState} (h : I st.sdg) :
    Ensures (snmpBulkgetLoop ag repeats st) fun st' => I st'.sdg := by
  induction repeats generalizing st with
  | zero => exact .pure h
  | succ repeats ih => exact (hI.snmpBulkgetRow ag [] st.vbs h).bind_of fun st' h' => ih h'

/-- **Answered datagrams** have what the request had. -/
theorem snmpRequestDispatch (ag : Agent σ) (hset : sdg.pduHdr.pduType = snmpReqSet → set)
    (h : I sdg) :
    Ensures (snmpRequestDispatch ag sdg) fun r => ∀ sdg', r = some sdg' → I sdg' := by
  have hmark : I (markResponse sdg) := hI.header _ h
  have hsome : ∀ {x : AgentM σ SnmpDatagram}, Ensures x I →
      Ensures (some <$> x) fun r => ∀ sdg', r = some sdg' → I sdg' := by
    intro x hx
    refine hx.bind_of fun sdg' hsdg' => .pure ?_
    rintro _ ⟨⟩
    exact hsdg'
  rw [SmithSnmp.snmpRequestDispatch]
  split
  · exact hsome (hI.readLoop _ _ _ hmark _)
  · split
    · exact hsome (hI.readLoop _ _ _ hmark _)
    · split
      · next htype => exact hsome (hI.snmpSetLoop (hset htype) _ _ _ hmark _)
      · split
        · have hrepeats := hI.header { (markResponse sdg).pduHdr with errIdx := 0 } hmark
          refine hsome ((hI.snmpBulkgetLoop ag _ (by exact hrepeats)).bind_of ?_)
          exact fun st hst => .pure (hI.asked _ hst)
        · exact .pure (by rintro _ ⟨⟩)

end AnswerInvariant

/-- The varbinds of the response, and the length of their list. -/
def SnmpDatagram.answers (sdg : SnmpDatagram) : UInt32 × List VarBind :=
  (sdg.vbListLen, sdg.vbOutList)

/-- A datagram without an answer yet is sized. -/
theorem Sized.of_answers (h : Sized sdg) (heq : sdg'.answers = sdg.answers) : Sized sdg' := by
  obtain ⟨hlen, hout⟩ := Prod.mk.inj heq
  exact ⟨by rw [hout]; exact h.oids, by rw [hout]; exact h.vbs, by rw [hout, hlen]; exact h.list⟩

theorem userSecurity_keeps_fields (cr : Crypto) (users : List MibUser) (sdg : SnmpDatagram) :
    Reader.Ensures (userSecurity cr users sdg) fun sdg' =>
      sdg'.vbOutList = sdg.vbOutList ∧ sdg'.msgFlags = sdg.msgFlags := by
  have hauthen : ∀ (user : MibUser) (s : SnmpDatagram),
      (snmpMsgAuthen cr user s).vbOutList = s.vbOutList ∧
        (snmpMsgAuthen cr user s).msgFlags = s.msgFlags := by
    intro user s
    simp only [snmpMsgAuthen]
    split
    · exact ⟨rfl, rfl⟩
    · split <;> exact ⟨rfl, rfl⟩
  refine .bind _ fun c => ?_
  dsimp only
  split
  · exact .pure ⟨rfl, rfl⟩
  · split
    · split
      · exact .bind _ fun _ => .pure (hauthen _ _)
      · exact .pure (hauthen _ _)
    · exact .pure ⟨rfl, rfl⟩

/-- A received datagram has no answer yet. -/
theorem snmpRecv_answers {users : List MibUser} (h : snmpRecv cr users b = .ok sdg) :
    sdg.answers = (0, []) := by
  have hbody : ∀ s : SnmpDatagram, s.vbOutList = [] →
      Reader.Ensures (bodyDecode s) fun s' => s'.answers = (0, []) := by
    intro s hs
    refine .bind _ fun name => Reader.Ensures.bind_of (R := fun s' => s'.vbOutList = []) ?_ ?_
    · exact .bind _ fun _ => .bind _ fun _ => .bind _ fun _ => .bind _ fun _ => .bind _ fun _ =>
        .pure hs
    · exact fun s' hs' => .bind _ fun _ => .bind _ fun _ => .bind _ fun _ =>
        .pure (Prod.ext rfl hs')
  have hheader : ∀ s : SnmpDatagram, s.vbOutList = [] →
      Reader.Ensures (headerDecode s) fun s' => s'.vbOutList = [] := by
    intro s hs
    refine .bind _ fun msgLen => Reader.Ensures.bind_of (R := fun s' => s'.vbOutList = []) ?_ ?_
    · exact .bind _ fun _ => .bind _ fun _ => .bind _ fun _ => .bind _ fun _ => .bind _ fun _ =>
        .pure hs
    · refine fun s' hs' => Reader.Ensures.bind_of (R := fun s' => s'.vbOutList = []) ?_ ?_
      · exact .bind _ fun _ => .bind _ fun _ => .bind _ fun _ => .bind _ fun _ => .bind _ fun _ =>
          .bind _ fun _ => .pure hs'
      · exact fun s' hs' => .bind _ fun _ => .bind _ fun _ => .pure hs'
  have hdecode : Reader.Ensures (snmpDecode cr users) fun s => s.answers = (0, []) := by
    refine .bind _ fun dataLen => .bind _ fun version => ?_
    dsimp only
    split
    · refine (hheader _ rfl).bind_of fun s hs => ?_
      refine (userSecurity_keeps_fields cr users s).bind_of fun s' hs' => ?_
      refine Reader.Ensures.bind_of (R := fun s' => s'.vbOutList = []) ?_ hbody
      exact .bind _ fun _ => .bind _ fun _ => .pure (hs'.1.trans hs)
    · exact hbody _ rfl
  obtain ⟨c, hrun, -⟩ := snmpRecv_eq_ok_iff.mp h
  exact Reader.Ensures.bind _ (fun _ => hdecode) _ _ _ hrun

theorem snmpRecv_sized {users : List MibUser} (h : snmpRecv cr users b = .ok sdg) : Sized sdg := by
  have hnil : Sized {} := ⟨by simp, by simp, rfl⟩
  exact hnil.of_answers (snmpRecv_answers h)

theorem addVarBind_sized {oid : Oid} {type : UInt8} {value : List UInt8} {room : ℕ} (h : Sized sdg)
    (hadd : addVarBind sdg oid type value room = some (sdg', vb)) : Sized sdg' := by
  obtain ⟨n, hn, heq⟩ := Option.map_eq_some_iff.mp hadd
  obtain ⟨rfl, rfl⟩ := Prod.mk.inj heq
  constructor
  · intro vb hvb
    rcases mem_append.mp hvb with hvb | hvb
    · exact h.oids vb hvb
    · obtain rfl := mem_singleton.mp hvb
      rw [hn]
      rfl
  · intro vb hvb
    rcases mem_append.mp hvb with hvb | hvb
    · exact h.vbs vb hvb
    · obtain rfl := mem_singleton.mp hvb
      refine (summed_cons berLengthEnc).mpr ⟨?_, trivial, trivial, trivial⟩
      simp [total, Tlv.len, spanOf_eq_tlvLen, hn]
  · simp only [map_append, map_cons, map_nil, total_append, h.list, total,
      spanOf_eq_tlvLen, UInt32.add_zero]
    rfl

/-- The datagrams of the request processors stay sized. -/
theorem sized_answerInvariant : AnswerInvariant True Sized where
  header _ h := h.of_answers rfl
  asked _ h := h.of_answers rfl
  add h _ hadd := addVarBind_sized h hadd

/-- Every answered datagram is sized. -/
theorem snmpRequestDispatch_sized (ag : Agent σ) (h : Sized sdg) :
    Ensures (snmpRequestDispatch ag sdg) fun r => ∀ sdg', r = some sdg' → Sized sdg' :=
  sized_answerInvariant.snmpRequestDispatch ag (fun _ => trivial) h

/-- Reads keep to the sizes that they reserve. -/
theorem readRoom_answerInvariant : AnswerInvariant False fun sdg =>
    ∀ vb ∈ sdg.vbOutList, vb.room = readRoom vb.valueType vb.value where
  header _ h := h
  asked _ h := h
  add h hroom hadd := by
    obtain ⟨n, hn, heq⟩ := Option.map_eq_some_iff.mp hadd
    obtain ⟨rfl, rfl⟩ := Prod.mk.inj heq
    intro vb hvb
    rcases mem_append.mp hvb with hvb | hvb
    · exact h vb hvb
    · obtain rfl := mem_singleton.mp hvb
      exact hroom id

/-- The values of a response take no more octets than were reserved for them: in the response to a
read, no OID as a value takes more than 255 octets. A SET reserves the size of the value that is
left in the variable, but takes this size for the number of its elements. -/
def ValuesFit (sdg sdg' : SnmpDatagram) : Prop :=
  ∀ vb ∈ sdg'.vbOutList, if sdg.pduHdr.pduType = snmpReqSet then vb.value.length ≤ vb.room
    else vb.valueType = asn1TagObjid → vb.value.length ≤ 255

instance decidableValuesFit (sdg sdg' : SnmpDatagram) : Decidable (ValuesFit sdg sdg') :=
  inferInstanceAs (Decidable (∀ _ ∈ _, _))

/-- A read overruns the memory of a varbind exactly with a long OID. -/
theorem inRoom_iff {ag : Agent σ} {w w' : World Event σ}
    (hrecv : snmpRecv cr ag.views.users b = .ok sdg)
    (hanswer : snmpRequestDispatch ag sdg w = (some (some sdg'), w')) :
    sdg'.InRoom ↔ ValuesFit sdg sdg' := by
  by_cases hset : sdg.pduHdr.pduType = snmpReqSet
  · simp only [SnmpDatagram.InRoom, ValuesFit, hset, if_true]
  · have hnil : sdg.vbOutList = [] := congrArg Prod.snd (snmpRecv_answers hrecv)
    have hroom := readRoom_answerInvariant.snmpRequestDispatch ag hset (by simp [hnil]) w _ w'
      hanswer sdg' rfl
    simp only [SnmpDatagram.InRoom, ValuesFit, hset, if_false]
    refine forall₂_congr fun vb hvb => ?_
    rw [hroom vb hvb, readRoom]
    by_cases hobjid : vb.valueType = asn1TagObjid
    · rw [if_pos hobjid, imp_iff_right hobjid]
      omega
    · simp [hobjid]

/-- A GET request of the community `p` for the instance `1.3.0`, with the request id in the
octets `reqId`. -/
def getMessage (reqId : List UInt8) : List UInt8 :=
  let n := UInt8.ofNat reqId.length
  [0x30, 26 + n, 2, 1, 0, 4, 1, 0x70, 0xA0, 18 + n, 2, n] ++ reqId ++
    [2, 1, 0, 2, 1, 0, 0x30, 8, 0x30, 6, 6, 2, 0x2B, 0, 5, 0]

/-- The datagram with which an agent answers a message. -/
def answerOf (ag : Agent Unit) (b : List UInt8) : Option SnmpDatagram :=
  (snmpRecv plainCrypto ag.views.users b).toOption.bind fun sdg =>
    (snmpRequestDispatch ag sdg ⟨(), []⟩).1.bind id

/-- The datagram with which the scalar agent answers a message. -/
def scalarAnswer (b : List UInt8) : Option SnmpDatagram := answerOf scalarAgent b

/-- The scalar agent with an OID as its value: 51 sub-identifiers of five octets. -/
def longOidAgent : Agent Unit :=
  { scalarAgent with
    handlers := {
      call := fun _ _ s _ st =>
        (.ret 0 s (.tab ([1, 3] ++ List.replicate 51 0xffffffff)) asn1TagObjid, st) } }

/-- The datagram with which the request id one, written in one octet, is answered. -/
def getAnswer : SnmpDatagram where
  dataLen := 27
  verLen := 1
  contextName := [0x70]
  pduHdr := { pduType := snmpResp, pduLen := 19, reqIdLen := 1, reqId := 1, errStatLen := 1,
              errIdxLen := 1 }
  vbInList := [{ oid := [1, 3, 0], valueType := asn1TagNul, value := [] }]
  vbListLen := 9
  vbOutList := [{ oid := [1, 3, 0], vbLen := 7, valueType := asn1TagInt, value := [7] }]

end SmithSnmp
