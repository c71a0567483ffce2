import SmithSnmp.BerCodec
import SmithSnmp.WellFormed

/-!
# Decoding What Was Encoded

`snmp_recv` on the octets of `snmp_response`. The decoder is followed field by field: on the
octets of a value the reader of that value yields it and moves behind it (`Parses`), and
readers that come one after the other take octets that stand one behind the other. Three
places are not of this kind, because the whole buffer is looked at: the loop over the
varbinds counts the octets of their lengths, the authentication step takes the message as it
stands, and the decryption starts over where the cipher text began.

## Main results

* `snmpRecv_snmpResponse`: a response is accepted, and its version, header, context name,
  PDU and varbinds are recovered.
-/

namespace SmithSnmp

open List Lib Reader Option Tlv

variable {len : UInt32} {sdg : SnmpDatagram} {vb : VarBind} {buf : SendBuf} {cr : Crypto}
  {users : List MibUser} {user : MibUser}

/-! ### Fields -/

theorem readTag_parses (tag : UInt8) (err : SnmpErrCode) :
    Parses (readTag tag err) [tag] [tag] () := by
  have hend : Parses (if tag ≠ tag then fail err else pure () : MsgReader Unit) [] [] () := by
    rw [if_neg (not_not.mpr rfl)]
    exact Parses.pure ()
  exact (Parses.octet tag).bind hend

theorem readLength_parses (len : UInt32) :
    Parses readLength (berLengthEnc len) (berLengthEnc len) len := by
  refine ⟨rfl, fun pre post => ?_⟩
  simp only [readLength, drop_left, berLengthDec_berLengthEnc, berLengthEnc_length]

/-- The header of a constructed value. -/
theorem readOpen_parses (tag : UInt8) (err : SnmpErrCode) (len : UInt32) :
    Parses (readOpen tag err) (header berLengthEnc tag len)
      (header berLengthEnc tag len) len :=
  (readTag_parses tag err).bind (readLength_parses len)

/-- An integer takes at least one octet, and at most five. -/
theorem berIntEncTry_bounds (value : Int32) :
    1 ≤ berIntEncTry value ∧ berIntEncTry value ≤ 5 := by
  have h : ∀ fill, 1 ≤ (dropLead fill (beBytes value.toUInt32)).length ∧
      (dropLead fill (beBytes value.toUInt32)).length ≤ 4 :=
    fun fill => dropLead_length fill (beBytes_ne_nil _)
  have h₀ := h 0x00
  have h₁ := h 0xff
  simp only [berIntEncTry]
  split
  · split <;> omega
  · split <;> omega

theorem readIntContent_parses {cs : List UInt8} (hlen : cs.length = len.toNat) (hne : cs ≠ [])
    {x : Int32} (hdec : berIntDec cs = some x) : Parses (readIntContent len) cs cs (len, x) := by
  have hpos : len ≠ 0 := by
    rintro rfl
    exact hne (eq_nil_of_length_eq_zero hlen)
  cases cs with
  | nil => exact absurd rfl hne
  | cons b bs =>
    have hrounds : ¬ signRounds b len.toNat = none := by
      rw [← hlen]
      intro hnone
      rw [berIntDec, headD_cons, hnone] at hdec
      cases hdec
    refine ⟨rfl, fun pre post => ?_⟩
    have hfirst := (Parses.octet b : Parses (octet : MsgReader UInt8) _ _ _).2 pre (bs ++ post)
    have hall := (Parses.octets hlen : Parses (octets len.toNat : MsgReader _) _ _ _).2 pre post
    rw [readIntContent, if_neg hpos, get_bind_apply, cons_append, ← singleton_append,
      bind_eq_of_ok hfirst, if_neg hrounds]
    rw [moveTo_bind_apply, singleton_append, ← cons_append, bind_eq_of_ok hall, hdec]
    rfl

/-- An integer whose length is declared. -/
theorem readInt_parses (err : SnmpErrCode) {value : Int32} (h : Echoes len value) :
    Parses (readInt err) ((intTlv len value).bytes berLengthEnc)
      ((intTlv len value).bytes berLengthEnc) (len, value) := by
  obtain ⟨hpos, hle⟩ := berIntEncTry_bounds value
  have hlen : len.toNat = berIntEncTry value := by
    rw [h, UInt32.toNat_ofNat_of_lt']
    change _ < 2 ^ 32
    omega
  have hcontent : (berIntEnc value).length = len.toNat := by rw [berIntEnc_length, hlen]
  have hne : berIntEnc value ≠ [] := by
    intro hnil
    rw [hnil, length_nil] at hcontent
    omega
  exact (readTag_parses _ err).bind ((readLength_parses len).bind
    (readIntContent_parses hcontent hne (berIntDec_berIntEnc value)))

/-- An octet string whose length passes the check. -/
theorem readOctstr_parses (err : SnmpErrCode) {check : UInt32 → Option SnmpErrCode}
    {octs : List UInt8} (hlt : octs.length < 2 ^ 32)
    (hcheck : check (UInt32.ofNat octs.length) = none) :
    Parses (readOctstr err check) ((octstrTlv octs).bytes berLengthEnc)
      ((octstrTlv octs).bytes berLengthEnc) octs := by
  have hlen : octs.length = (UInt32.ofNat octs.length).toNat :=
    (UInt32.toNat_ofNat_of_lt' hlt).symm
  refine (readTag_parses _ err).bind ((readLength_parses _).bind ?_)
  rw [hcheck]
  exact Parses.octets hlen

/-- A name that fits into its field. -/
theorem checkName_eq_none (size : UInt32) (err : SnmpErrCode) {n : ℕ} (h : n < size.toNat) :
    checkName size err (UInt32.ofNat n) = none := by
  have hsize := size.toNat_lt
  rw [checkName, if_neg]
  rw [UInt32.lt_iff_toNat_lt, UInt32.toNat_add, UInt32.toNat_ofNat']
  simp only [UInt32.reduceToNat]
  omega

/-- Parameters that are absent or complete. -/
theorem checkPara_eq_none (size : UInt32) (err : SnmpErrCode) {n : ℕ}
    (h : n = 0 ∨ n = size.toNat) : checkPara size err (UInt32.ofNat n) = none := by
  rw [checkPara, if_neg]
  rintro ⟨hzero, hsize⟩
  rcases h with rfl | rfl
  · exact hzero rfl
  · exact hsize UInt32.ofNat_toNat

theorem readAuthPara_parses {auth : List UInt8} (h : auth.length = 0 ∨ auth.length = 12) :
    Parses readAuthPara ((octstrTlv auth).bytes berLengthEnc)
      ((octstrTlv (List.replicate auth.length 0)).bytes berLengthEnc) auth := by
  have hlt : auth.length < 2 ^ 32 := by omega
  have hstr := readOctstr_parses .securityAuthPara hlt
    (checkPara_eq_none snmpMsgAuthParaLen .securityAuthParaLen h)
  have hbytes : ∀ octs : List UInt8, octs.length = auth.length →
      (octstrTlv octs).bytes berLengthEnc =
        header berLengthEnc asn1TagOctstr (UInt32.ofNat auth.length) ++ octs := by
    intro octs hlen
    rw [octstrTlv, Tlv.bytes, hlen]
  rw [hbytes _ length_replicate]
  refine ⟨?_, fun pre post => ?_⟩
  · rw [hbytes _ rfl, length_append, length_append, length_replicate]
  · rw [readAuthPara, bind_eq_of_ok (hstr.2 pre post), hbytes _ rfl]
    set hdr := header berLengthEnc asn1TagOctstr (UInt32.ofNat auth.length)
    have hpos : pre.length + (hdr ++ auth).length - auth.length = (pre ++ hdr).length := by
      simp only [length_append]
      omega
    have hsplice : splice (pre ++ (hdr ++ auth ++ post)) (pre ++ hdr).length
        (List.replicate auth.length 0) = pre ++ (hdr ++ List.replicate auth.length 0 ++ post) := by
      have hlen : (List.replicate auth.length (0 : UInt8)).length = auth.length :=
        length_replicate
      have := splice_append (pre ++ hdr) post hlen
      simpa only [append_assoc] using this
    rw [← hsplice, ← hpos]
    rfl

theorem readPrivPara_parses {priv : List UInt8} (h : priv.length = 0 ∨ priv.length = 8) :
    Parses readPrivPara ((octstrTlv priv).bytes berLengthEnc)
      ((octstrTlv priv).bytes berLengthEnc) priv :=
  readOctstr_parses .securityEngineTime (by omega)
    (checkPara_eq_none snmpMsgEncryptParaLen .securityPrivParaLen h)

/-! ### The header of SNMPv3 -/

/-- The engine id that responses carry fits. -/
theorem snmpv3EngineId_parses (err lenErr : SnmpErrCode) :
    Parses (readOctstr err (checkName 33 lenErr)) ((octstrTlv snmpv3EngineId).bytes berLengthEnc)
      ((octstrTlv snmpv3EngineId).bytes berLengthEnc) snmpv3EngineId :=
  readOctstr_parses err (by decide) (checkName_eq_none 33 lenErr (by decide))

/-- Flags of up to four octets leave their length as it is. -/
theorem skipFlags_apply {flags : List UInt8} (h : flags.length ≤ 4) {c : Cursor UInt8}
    (hpos : flags.length ≤ c.pos) : skipFlags flags c = .ok ((), c) := by
  have hlen : (msgFlagsLen flags).toNat = flags.length := by
    rw [msgFlagsLen, drop_eq_nil_of_le h, take_nil, pokeBytes, nil_append,
      length_nil, drop_zero, peekWord_leBytes, UInt32.toNat_ofNat_of_lt']
    change _ < 2 ^ 32
    omega
  rw [skipFlags, get_bind_apply, if_neg (by omega), moveTo, hlen, Nat.sub_add_cancel hpos]

/-- The flags, and what comes behind them. -/
theorem flags_parses {α : Type} {flags : List UInt8} (h : flags.length ≤ 4)
    {k : List UInt8 → MsgReader α} {cs cs' : List UInt8} {a : α} (hk : Parses (k flags) cs cs' a) :
    Parses (readOctstr .globalFlags (fun _ => none) >>= fun fs => skipFlags fs >>= fun _ => k fs)
      ((octstrTlv flags).bytes berLengthEnc ++ cs) ((octstrTlv flags).bytes berLengthEnc ++ cs')
      a := by
  have hlt : flags.length < 2 ^ 32 := by omega
  have hread : Parses (readOctstr .globalFlags fun _ => none) _ _ _ :=
    readOctstr_parses .globalFlags hlt rfl
  refine ⟨by simp [hk.1], fun pre post => ?_⟩
  have h₁ := hread.2 pre (cs ++ post)
  have h₂ := hk.2 (pre ++ (octstrTlv flags).bytes berLengthEnc) post
  have hpos : flags.length ≤ pre.length + ((octstrTlv flags).bytes berLengthEnc).length := by
    rw [octstrTlv, Tlv.bytes, length_append]
    omega
  rw [append_assoc, bind_eq_of_ok h₁, bind_eq_of_ok (skipFlags_apply h hpos)]
  simp only [length_append, append_assoc] at h₂
  rw [h₂, append_assoc, length_append, Nat.add_assoc]

/-- What the decoder takes over from the header of SNMPv3. -/
def withHeader (s sdg : SnmpDatagram) : SnmpDatagram :=
  { s with
    msgLen := sdg.msgLen
    msgIdLen := sdg.msgIdLen
    msgId := sdg.msgId
    msgSizeLen := sdg.msgSizeLen
    msgMaxSize := sdg.msgMaxSize
    msgFlags := sdg.msgFlags
    msgModelLen := sdg.msgModelLen
    msgSecurityModel := sdg.msgSecurityModel
    securStrLen := sdg.securStrLen
    securParaLen := sdg.securParaLen
    engineId := snmpv3EngineId
    engineBootsLen := sdg.engineBootsLen
    engineBoots := sdg.engineBoots
    engineTimeLen := sdg.engineTimeLen
    engineTime := sdg.engineTime
    userName := sdg.userName
    authPara := sdg.authPara
    privPara := sdg.privPara }

/-- The conditions on the header of SNMPv3: one octet of flags, a user name that fits, and
parameters that are absent or complete. -/
structure HeaderOk (sdg : SnmpDatagram) : Prop where
  flags : sdg.msgFlags.length = 1
  userName : sdg.userName.length ≤ 40
  authPara : sdg.authPara.length = 0 ∨ sdg.authPara.length = 12
  privPara : sdg.privPara.length = 0 ∨ sdg.privPara.length = 8

theorem headerDecode_parses (he : EchoesLengths sdg) (hv : 3 ≤ sdg.version) (hok : HeaderOk sdg)
    (s : SnmpDatagram) :
    Parses (headerDecode s) (bytesList berLengthEnc (headerTlvsV3 sdg))
      (bytesList berLengthEnc
        (headerTlvsV3 { sdg with authPara := List.replicate sdg.authPara.length 0 }))
      (withHeader s sdg) := by
  have hflags : sdg.msgFlags.length ≤ 4 := by rw [hok.flags]; decide
  have huser : Parses (readOctstr .securityUserName (checkName 41 .securityUserNameLen))
      ((octstrTlv sdg.userName).bytes berLengthEnc) ((octstrTlv sdg.userName).bytes berLengthEnc)
      sdg.userName :=
    readOctstr_parses _ (by have := hok.userName; omega)
      (checkName_eq_none 41 _ (by have := hok.userName; change _ < 41; omega))
  have hglobal : ∀ s : SnmpDatagram, Parses (globalDataDecode s) _ _ _ := fun s =>
    (readInt_parses _ (he.msgId hv)).bind ((readInt_parses _ (he.msgSize hv)).bind
      (flags_parses hflags (readInt_parses _ (he.msgModel hv)).bind_pure))
  have husm : ∀ s : SnmpDatagram, Parses (usmDecode s) _ _ _ := fun s =>
    (readOpen_parses _ _ sdg.securStrLen).bind ((readOpen_parses _ _ sdg.securParaLen).bind
      ((snmpv3EngineId_parses _ _).bind ((readInt_parses _ (he.engineBoots hv)).bind
        ((readInt_parses _ (he.engineTime hv)).bind huser.bind_pure))))
  have hsecurity : ∀ s : SnmpDatagram, Parses (securityParameterDecode s) _ _ _ := fun s =>
    (husm s).bind ((readAuthPara_parses hok.authPara).bind
      (readPrivPara_parses hok.privPara).bind_pure)
  have hheader : Parses (headerDecode s) _ _ _ :=
    (readOpen_parses _ _ sdg.msgLen).bind ((hglobal _).bind (hsecurity _))
  simpa only [headerTlvsV3, globalDataEncode, securityParameterEncode, Tlv.bytes,
    bytesList_cons, bytesList_nil, append_nil, append_assoc, withHeader] using hheader

/-! ### Varbinds -/

/-- The conditions on a varbind: an OID of at most 64 sub-identifiers and 255 octets that the
decoder can yield, and a value of at most 1024 octets. -/
structure VarBindOk (vb : VarBind) : Prop where
  decodable : ∃ bs, bs ≠ [] ∧ berOidDec bs = vb.oid
  subIds : vb.oid.length ≤ asn1OidMaxLen
  octets : (berOidEnc vb.oid).length ≤ 255
  value : vb.value.length ≤ asn1ValueMaxLen

/-- The varbind as it is received. -/
def VarBind.received (vb : VarBind) : VarBind :=
  { oid := vb.oid, valueType := vb.valueType, value := vb.value }

theorem VarBindOk.isSome (h : VarBindOk vb) : (berOidEncTry vb.oid).isSome := by
  have hle : vb.oid.length ≤ 64 := h.subIds
  rw [berOidEncTry]
  split
  · rfl
  · rw [if_neg (by omega)]
    rfl

/-- `ber_oid_enc_try` is right about the OID. -/
theorem VarBindOk.oidLen (h : VarBindOk vb) :
    (berOidEncTry vb.oid).getD 0 = (berOidEnc vb.oid).length := by
  obtain ⟨n, hn⟩ := isSome_iff_exists.mp h.isSome
  have hle := h.octets
  rw [hn, getD_some, berOidEncTry_eq hn, Nat.mod_eq_of_lt (by omega)]

/-- The parts of a varbind. -/
def varBindParts (vb : VarBind) : List Tlv :=
  [.prim asn1TagObjid (UInt32.ofNat ((berOidEncTry vb.oid).getD 0)) (berOidEnc vb.oid),
    .prim vb.valueType (UInt32.ofNat vb.value.length) vb.value]

/-- The parts of a varbind are read back. -/
theorem varBindAlloc_parses (h : VarBindOk vb) :
    Parses varBindAlloc (bytesList berLengthEnc (varBindParts vb))
      (bytesList berLengthEnc (varBindParts vb)) vb.received := by
  have hoctets := h.octets
  have hvalue : vb.value.length ≤ 1024 := h.value
  set n := UInt32.ofNat (berOidEnc vb.oid).length
  set m := UInt32.ofNat vb.value.length
  have hn : n.toNat = (berOidEnc vb.oid).length :=
    UInt32.toNat_ofNat_of_lt' (by change _ < 2 ^ 32; omega)
  have hm : m.toNat = vb.value.length :=
    UInt32.toNat_ofNat_of_lt' (by change _ < 2 ^ 32; omega)
  have hdec := berOidDec_berOidEnc h.decodable
  have hne : berOidEnc vb.oid ≠ [] := by
    obtain ⟨bs, hbs, hoid⟩ := h.decodable
    intro hnil
    rw [hnil] at hdec
    cases bs with
    | nil => exact hbs rfl
    | cons b bs => rw [← hoid] at hdec; cases hdec
  have hcount : ¬asn1OidMaxLen < (if n = 0 then 0 else berOidDecTry (berOidEnc vb.oid)) := by
    rw [berOidDecTry_eq hne, hdec]
    have := h.subIds
    split <;> omega
  have hlimit : ¬asn1ValueMaxLen < m.toNat := by
    rw [hm]
    exact not_lt.mpr h.value
  have hpass : ∀ {p : Prop} [Decidable p] (err : SnmpErrCode), ¬p →
      Parses (unlessErr (if p then some err else none) (pure ())) [] [] () := by
    intro p _ err hp
    rw [if_neg hp]
    exact Parses.pure ()
  have hparse : Parses varBindAlloc _ _ _ :=
    (readOpen_parses _ _ n).bind ((Parses.octets hn.symm).bind ((hpass _ hcount).bind_nil
      ((Parses.octet vb.valueType).bind ((readLength_parses m).bind ((hpass _ hlimit).bind_nil
        (Parses.octets hm.symm).bind_pure)))))
  rw [hdec] at hparse
  simpa only [varBindParts, h.oidLen, Tlv.bytes, header, bytesList_cons,
    bytesList_nil, append_nil, append_assoc, cons_append, nil_append,
    VarBind.received] using hparse

/-- **Step lemma** of the loop over the varbinds: an exact varbind is read, and the loop goes
on behind it with what is left of the list. -/
theorem varBindLoop_round (h : VarBindOk vb) (hexact : (varBindTree vb).Exact berLengthEnc)
    (fuel : ℕ) {listLen : UInt32} (hne : listLen ≠ 0) (vbs : List VarBind) (pre post : List UInt8) :
    varBindLoop (fuel + 1) listLen vbs
        ⟨pre ++ ((varBindTree vb).bytes berLengthEnc ++ post), pre.length⟩ =
      varBindLoop fuel (listLen - spanOf berLengthEnc vb.vbLen) (vbs ++ [vb.received])
        ⟨pre ++ ((varBindTree vb).bytes berLengthEnc ++ post),
          pre.length + ((varBindTree vb).bytes berLengthEnc).length⟩ := by
  have hlen : (bytesList berLengthEnc (varBindParts vb)).length = vb.vbLen.toNat :=
    ((exact_cons berLengthEnc).mp hexact).1
  have hbytes : (varBindTree vb).bytes berLengthEnc = [asn1TagSeq] ++ (berLengthEnc vb.vbLen ++
      bytesList berLengthEnc (varBindParts vb)) := rfl
  set buf := pre ++ ((varBindTree vb).bytes berLengthEnc ++ post) with hbuf
  rw [hbytes, append_assoc, append_assoc] at hbuf
  -- tag, length and content, one after the other
  have htag : readTag asn1TagSeq .vbSeq ⟨buf, pre.length⟩ = .ok ((), ⟨buf, pre.length + 1⟩) :=
    (readTag_parses _ _).run pre _ hbuf rfl
  have hlength : readLength ⟨buf, pre.length + 1⟩ =
      .ok (vb.vbLen, ⟨buf, pre.length + 1 + (berLengthEnc vb.vbLen).length⟩) :=
    (readLength_parses _).run (pre ++ [asn1TagSeq]) _ (by rw [hbuf, append_assoc]) (by simp)
  have halloc : varBindAlloc ⟨buf, pre.length + 1 + (berLengthEnc vb.vbLen).length⟩ =
      .ok (vb.received, ⟨buf, pre.length + 1 + (berLengthEnc vb.vbLen).length +
        (bytesList berLengthEnc (varBindParts vb)).length⟩) :=
    (varBindAlloc_parses h).run (pre ++ ([asn1TagSeq] ++ berLengthEnc vb.vbLen)) post
      (by rw [hbuf, append_assoc, append_assoc]) (by simp; omega)
  have hspan : 1 + UInt32.ofNat (pre.length + 1 + (berLengthEnc vb.vbLen).length -
      (pre.length + 1)) + vb.vbLen = spanOf berLengthEnc vb.vbLen := by
    rw [Nat.add_sub_cancel_left, spanOf]
  have hpos : pre.length + 1 + (berLengthEnc vb.vbLen).length + vb.vbLen.toNat =
      pre.length + ((varBindTree vb).bytes berLengthEnc).length := by
    rw [hbytes, length_append, length_append, hlen, length_singleton]
    omega
  rw [varBindLoop, if_neg hne, bind_eq_of_ok htag, get_bind_apply, bind_eq_of_ok hlength,
    get_bind_apply, bind_eq_of_ok halloc, moveTo_bind_apply, ← hspan, ← hpos]

/-- **Run lemma**: all varbinds are read back in order. -/
theorem varBindLoop_parses {vbs : List VarBind} (hok : ∀ vb ∈ vbs, VarBindOk vb)
    (hexact : ExactList berLengthEnc (vbs.map varBindTree))
    (hlt : (bytesList berLengthEnc (vbs.map varBindTree)).length < 2 ^ 32) {fuel : ℕ}
    (hfuel : vbs.length ≤ fuel) (acc : List VarBind) :
    Parses (varBindLoop fuel (total berLengthEnc (vbs.map varBindTree)) acc)
      (bytesList berLengthEnc (vbs.map varBindTree))
      (bytesList berLengthEnc (vbs.map varBindTree)) (acc ++ vbs.map VarBind.received) := by
  induction vbs generalizing fuel acc with
  | nil =>
    rw [map_nil, total, varBindLoop_nil, map_nil, append_nil]
    exact Parses.pure acc
  | cons vb vbs ih =>
    have htotal := total_eq hexact
    rw [map_cons] at hexact hlt htotal ⊢
    set t := varBindTree vb with ht
    set ts := vbs.map varBindTree
    rw [bytesList_cons] at hlt htotal ⊢
    have hne : total berLengthEnc (t :: ts) ≠ 0 := by
      rw [htotal, Ne, ← UInt32.toNat_inj, UInt32.toNat_ofNat_of_lt' hlt, length_append,
        bytes_length hexact.1]
      exact fun hzero => by simp at hzero
    have hsub : total berLengthEnc (t :: ts) - spanOf berLengthEnc vb.vbLen =
        total berLengthEnc ts := by
      rw [total, UInt32.add_comm, ht]
      exact UInt32.add_sub_cancel ..
    obtain ⟨fuel, rfl⟩ := Nat.exists_eq_add_one_of_ne_zero
      (Nat.ne_of_gt (Nat.lt_of_lt_of_le (Nat.zero_lt_succ vbs.length) hfuel))
    have hrest := ih (fun vb' h' => hok vb' (mem_cons_of_mem vb h')) hexact.2
      (by rw [length_append] at hlt; omega) (Nat.le_of_succ_le_succ hfuel)
      (acc ++ [vb.received])
    refine ⟨rfl, fun pre post => ?_⟩
    rw [append_assoc, varBindLoop_round (hok vb (by simp)) hexact.1 fuel hne, hsub,
      hrest.run (pre ++ t.bytes berLengthEnc) post (by rw [append_assoc]) (by simp [ht])]
    simp [ht, Nat.add_assoc]

/-! ### PDU -/

/-- What the decoder takes over from the context name and the PDU. -/
def withBody (s sdg : SnmpDatagram) : SnmpDatagram :=
  { s with
    contextName := sdg.contextName
    pduHdr := sdg.pduHdr
    vbListLen := 0
    vbInList := sdg.vbOutList.map VarBind.received }

/-- The conditions on the context name and the PDU. -/
structure BodyOk (sdg : SnmpDatagram) : Prop where
  contextName : sdg.contextName.length ≤ 40
  vbs : ∀ vb ∈ sdg.vbOutList, VarBindOk vb

theorem varBindParse_parses (hok : BodyOk sdg)
    (hlist : sdg.vbListLen = total berLengthEnc (sdg.vbOutList.map varBindTree))
    (hexact : (Tlv.cons asn1TagSeq sdg.vbListLen (sdg.vbOutList.map varBindTree)).Exact
      berLengthEnc) (s : SnmpDatagram) :
    Parses (varBindParse s)
      ((Tlv.cons asn1TagSeq sdg.vbListLen (sdg.vbOutList.map varBindTree)).bytes berLengthEnc)
      ((Tlv.cons asn1TagSeq sdg.vbListLen (sdg.vbOutList.map varBindTree)).bytes berLengthEnc)
      { s with vbListLen := 0, vbInList := sdg.vbOutList.map VarBind.received } := by
  obtain ⟨hlen, hvalues⟩ := (exact_cons berLengthEnc).mp hexact
  have hlt : (bytesList berLengthEnc (sdg.vbOutList.map varBindTree)).length < 2 ^ 32 :=
    hlen ▸ sdg.vbListLen.toNat_lt
  have hle := length_le_bytesList berLengthEnc (sdg.vbOutList.map varBindTree)
  rw [length_map] at hle
  refine ⟨rfl, fun pre post => ?_⟩
  rw [Tlv.bytes]
  generalize hbs : bytesList berLengthEnc (sdg.vbOutList.map varBindTree) = bs at hle
  generalize hhdr : header berLengthEnc asn1TagSeq sdg.vbListLen = hdr
  generalize hbuf : pre ++ (hdr ++ bs ++ post) = buf
  rw [append_assoc] at hbuf
  have hopen : readOpen asn1TagSeq .vbListSeq ⟨buf, pre.length⟩ =
      .ok (sdg.vbListLen, ⟨buf, pre.length + hdr.length⟩) := by
    rw [← hhdr] at hbuf ⊢
    exact (readOpen_parses _ _ _).run pre _ hbuf.symm rfl
  have hfuel : sdg.vbOutList.length ≤ buf.length - (pre.length + hdr.length) := by
    rw [← hbuf, length_append, length_append, length_append]
    omega
  have hloop : varBindLoop (buf.length - (pre.length + hdr.length)) sdg.vbListLen []
      ⟨buf, pre.length + hdr.length⟩ = .ok (sdg.vbOutList.map VarBind.received,
        ⟨buf, pre.length + hdr.length + bs.length⟩) := by
    rw [hlist, ← hbs]
    exact (varBindLoop_parses hok.vbs hvalues hlt hfuel []).run (pre ++ hdr) post
      (by rw [← hbuf, hbs, append_assoc]) (length_append ..).symm
  rw [varBindParse, bind_eq_of_ok hopen, get_bind_apply, bind_eq_of_ok hloop, length_append,
    ← Nat.add_assoc]
  rfl

theorem bodyDecode_parses (he : EchoesLengths sdg) (hok : BodyOk sdg)
    (hlist : sdg.vbListLen = total berLengthEnc (sdg.vbOutList.map varBindTree))
    (hexact : (pduTlv sdg (sdg.vbOutList.map varBindTree)).Exact berLengthEnc) (s : SnmpDatagram) :
    Parses (bodyDecode s)
      (bytesList berLengthEnc
        [octstrTlv sdg.contextName, pduTlv sdg (sdg.vbOutList.map varBindTree)])
      (bytesList berLengthEnc
        [octstrTlv sdg.contextName, pduTlv sdg (sdg.vbOutList.map varBindTree)])
      (withBody s sdg) := by
  have hname : Parses (readOctstr .contextName (checkName 41 .contextNameLen))
      ((octstrTlv sdg.contextName).bytes berLengthEnc)
      ((octstrTlv sdg.contextName).bytes berLengthEnc) sdg.contextName :=
    readOctstr_parses _ (by have := hok.contextName; omega)
      (checkName_eq_none 41 _ (by have := hok.contextName; change _ < 41; omega))
  have hhdr : ∀ s : SnmpDatagram, Parses (pduHdrParse s) _ _ _ := fun s =>
    (Parses.octet sdg.pduHdr.pduType).bind ((readLength_parses sdg.pduHdr.pduLen).bind
      ((readInt_parses _ he.reqId).bind ((readInt_parses _ he.errStat).bind
        (readInt_parses _ he.errIdx).bind_pure)))
  obtain ⟨-, -, -, -, hvbs, -⟩ := hexact
  have hbody : Parses (bodyDecode s) _ _ _ :=
    hname.bind ((hhdr _).bind (varBindParse_parses hok hlist hvbs _))
  simpa only [pduTlv, Tlv.bytes, header, bytesList_cons, bytesList_nil,
    append_nil, append_assoc, cons_append, nil_append, withBody] using hbody

/-- The scoped PDU of SNMPv3 is recovered. -/
theorem scopeDecode_parses (he : EchoesLengths sdg) (hv : 3 ≤ sdg.version) (hok : BodyOk sdg)
    (hlist : sdg.vbListLen = total berLengthEnc (sdg.vbOutList.map varBindTree))
    (hexact : ExactList berLengthEnc (scopeTlvs sdg (sdg.vbOutList.map varBindTree)))
    (s : SnmpDatagram) :
    Parses (scopeDecode s >>= bodyDecode)
      (bytesList berLengthEnc (scopeTlvs sdg (sdg.vbOutList.map varBindTree)))
      (bytesList berLengthEnc (scopeTlvs sdg (sdg.vbOutList.map varBindTree)))
      (withBody { s with scopeLen := sdg.scopeLen, contextId := snmpv3EngineId } sdg) := by
  rw [scopeTlvs, if_pos hv] at hexact ⊢
  obtain ⟨⟨-, -, -, hpdu, -⟩, -⟩ := hexact
  have hscope : Parses (scopeDecode s) _ _ _ :=
    (readOpen_parses _ _ sdg.scopeLen).bind (snmpv3EngineId_parses _ _).bind_pure
  have hboth := hscope.bind (bodyDecode_parses he hok hlist hpdu _)
  simpa only [Tlv.bytes, bytesList_cons, bytesList_nil, append_nil,
    append_assoc] using hboth

/-! ### The start of a message -/

/-- The buffer with blank authentication parameters. -/
def SendBuf.blank (buf : SendBuf) : SendBuf :=
  { buf with sdg := { buf.sdg with authPara := List.replicate buf.sdg.authPara.length 0 } }

/-- What stands before the body. -/
def SendBuf.head (buf : SendBuf) : List UInt8 :=
  header berLengthEnc asn1TagSeq buf.sdg.dataLen ++
    bytesList berLengthEnc (headerTlvs buf.sdg)

theorem SendBuf.bytes_eq (buf : SendBuf) : buf.bytes = buf.head ++ buf.body := by
  rw [SendBuf.bytes, SendBuf.content, SendBuf.head, append_assoc]

/-- What the decoder knows before the version decides. -/
def startOf (sdg : SnmpDatagram) : SnmpDatagram :=
  { dataLen := sdg.dataLen, verLen := sdg.verLen, version := sdg.version }

theorem snmpDecode_start (cr : Crypto) (users : List MibUser)
    (he : Echoes buf.sdg.verLen buf.sdg.version) (hlen : buf.bytes.length = buf.sendLen.toNat) :
    (do checkMessage buf.bytes.length; snmpDecode cr users : MsgReader SnmpDatagram)
        ⟨buf.bytes, 0⟩ =
      (if 3 ≤ buf.sdg.version then do
        let sdg ← headerDecode (startOf buf.sdg)
        let sdg ← userSecurity cr users sdg
        let sdg ← scopeDecode sdg
        bodyDecode sdg
      else bodyDecode (startOf buf.sdg)) ⟨buf.bytes,
        (header berLengthEnc asn1TagSeq buf.sdg.dataLen).length +
          ((intTlv buf.sdg.verLen buf.sdg.version).bytes berLengthEnc).length⟩ := by
  obtain ⟨rest, hbuf⟩ : ∃ rest, buf.bytes = [asn1TagSeq] ++ (berLengthEnc buf.sdg.dataLen ++
      ((intTlv buf.sdg.verLen buf.sdg.version).bytes berLengthEnc ++ rest)) :=
    ⟨_, by
      simp only [SendBuf.bytes, SendBuf.content, header, headerTlvs, bytesList_cons,
        append_assoc, cons_append, nil_append]
      rfl⟩
  have htag : readTag asn1TagSeq .pduType ⟨buf.bytes, 0⟩ = .ok ((), ⟨buf.bytes, 1⟩) :=
    (readTag_parses _ _).run [] _ hbuf rfl
  have hlength : readLength ⟨buf.bytes, 1⟩ =
      .ok (buf.sdg.dataLen, ⟨buf.bytes, 1 + (berLengthEnc buf.sdg.dataLen).length⟩) :=
    (readLength_parses _).run [asn1TagSeq] _ hbuf rfl
  have hint : readInt .version ⟨buf.bytes, 1 + (berLengthEnc buf.sdg.dataLen).length⟩ =
      .ok ((buf.sdg.verLen, buf.sdg.version),
        ⟨buf.bytes, 1 + (berLengthEnc buf.sdg.dataLen).length +
          ((intTlv buf.sdg.verLen buf.sdg.version).bytes berLengthEnc).length⟩) :=
    (readInt_parses _ he).run ([asn1TagSeq] ++ berLengthEnc buf.sdg.dataLen) rest
      (by rw [hbuf, append_assoc]) (by simp [Nat.add_comm])
  have hcheck : checkMessage buf.bytes.length ⟨buf.bytes, 0⟩ = .ok ((), ⟨buf.bytes, 1⟩) := by
    rw [checkMessage, bind_eq_of_ok htag, get_bind_apply, bind_eq_of_ok hlength, get_bind_apply,
      if_neg]
    · rfl
    · rw [not_not, hlen, UInt32.ofNat_toNat, Nat.add_sub_cancel_left, berLengthEnc_length]
      rfl
  rw [bind_eq_of_ok hcheck, snmpDecode, bind_eq_of_ok hlength, bind_eq_of_ok hint, header,
    length_cons, Nat.add_comm (berLengthEnc buf.sdg.dataLen).length 1]
  rfl

/-- A message of SNMPv1 or SNMPv2c is recovered. -/
theorem snmpRecv_of_body (cr : Crypto) (users : List MibUser) (he : EchoesLengths buf.sdg)
    (hv : ¬3 ≤ buf.sdg.version) (hlen : buf.bytes.length = buf.sendLen.toNat) (hok : BodyOk buf.sdg)
    (hlist : buf.sdg.vbListLen = total berLengthEnc (buf.sdg.vbOutList.map varBindTree))
    (hplain : buf.plain = scopeTlvs buf.sdg (buf.sdg.vbOutList.map varBindTree))
    (hcipher : buf.cipher = none) (hexact : ExactList berLengthEnc buf.plain) :
    snmpRecv cr users buf.bytes = .ok (withBody (startOf buf.sdg) buf.sdg) := by
  rw [scopeTlvs, if_neg hv] at hplain
  have hbody : buf.body = bytesList berLengthEnc
      [octstrTlv buf.sdg.contextName, pduTlv buf.sdg (buf.sdg.vbOutList.map varBindTree)] := by
    rw [SendBuf.body, hcipher, hplain]
  have hhead : buf.head = header berLengthEnc asn1TagSeq buf.sdg.dataLen ++
      (intTlv buf.sdg.verLen buf.sdg.version).bytes berLengthEnc := by
    rw [SendBuf.head, headerTlvs, if_neg hv, bytesList_cons, bytesList_nil,
      append_nil]
  rw [hplain] at hexact
  have hrun : bodyDecode (startOf buf.sdg) ⟨buf.bytes, buf.head.length⟩ =
      .ok (withBody (startOf buf.sdg) buf.sdg, ⟨buf.bytes, _⟩) :=
    (bodyDecode_parses he hok hlist hexact.2.1 _).run buf.head []
      (by rw [buf.bytes_eq, hbody, append_nil]) rfl
  refine snmpRecv_eq_ok_iff.mpr ⟨_, Eq.trans ?_ hrun, Nat.zero_le _⟩
  rw [snmpDecode_start cr users he.version hlen, if_neg hv, ← length_append, ← hhead]

theorem snmpDecode_header (cr : Crypto) (users : List MibUser) (he : EchoesLengths buf.sdg)
    (hv : 3 ≤ buf.sdg.version) (hok : HeaderOk buf.sdg)
    (hlen : buf.bytes.length = buf.sendLen.toNat) :
    (do checkMessage buf.bytes.length; snmpDecode cr users : MsgReader SnmpDatagram)
        ⟨buf.bytes, 0⟩ =
      (do
        let sdg ← userSecurity cr users (withHeader (startOf buf.sdg) buf.sdg)
        let sdg ← scopeDecode sdg
        bodyDecode sdg) ⟨buf.blank.bytes, buf.blank.head.length⟩ := by
  have hparse := headerDecode_parses he hv hok (startOf buf.sdg)
  obtain ⟨pre, hpre⟩ : ∃ pre, pre = header berLengthEnc asn1TagSeq buf.sdg.dataLen ++
    (intTlv buf.sdg.verLen buf.sdg.version).bytes berLengthEnc := ⟨_, rfl⟩
  have hbytes : buf.bytes =
      pre ++ (bytesList berLengthEnc (headerTlvsV3 buf.sdg) ++ buf.body) := by
    rw [buf.bytes_eq, SendBuf.head, headerTlvs, if_pos hv, bytesList_cons, hpre]
    simp only [append_assoc]
  have hhead : buf.blank.head =
      pre ++ bytesList berLengthEnc (headerTlvsV3 buf.blank.sdg) := by
    have hv' : 3 ≤ buf.blank.sdg.version := hv
    rw [SendBuf.head, headerTlvs, if_pos hv', bytesList_cons, ← append_assoc, hpre]
    rfl
  have hrun : headerDecode (startOf buf.sdg) ⟨buf.bytes, pre.length⟩ =
      .ok (withHeader (startOf buf.sdg) buf.sdg, ⟨buf.blank.bytes, buf.blank.head.length⟩) := by
    have hpos : buf.blank.head.length =
        pre.length + (bytesList berLengthEnc (headerTlvsV3 buf.sdg)).length := by
      rw [hhead, length_append]
      exact congrArg (pre.length + ·) hparse.1
    rw [hbytes, hparse.2 pre buf.body, hpos, buf.blank.bytes_eq, hhead, append_assoc]
    rfl
  rw [snmpDecode_start cr users he.version hlen, if_pos hv, ← length_append, ← hpre,
    bind_eq_of_ok hrun]

/-! ### Security -/

/-- When the user security model leaves the cursor at a plain scoped PDU, the message is
recovered. -/
theorem snmpRecv_of_security (he : EchoesLengths buf.sdg) (hv : 3 ≤ buf.sdg.version)
    (hheader : HeaderOk buf.sdg) (hlen : buf.bytes.length = buf.sendLen.toNat)
    (hok : BodyOk buf.sdg)
    (hlist : buf.sdg.vbListLen = total berLengthEnc (buf.sdg.vbOutList.map varBindTree))
    (hplain : buf.plain = scopeTlvs buf.sdg (buf.sdg.vbOutList.map varBindTree))
    (hexact : ExactList berLengthEnc buf.plain) {s : SnmpDatagram} {post : List UInt8}
    (hsecurity : userSecurity cr users (withHeader (startOf buf.sdg) buf.sdg)
        ⟨buf.blank.bytes, buf.blank.head.length⟩ =
      .ok (s, ⟨buf.blank.head ++ (bytesList berLengthEnc buf.plain ++ post),
        buf.blank.head.length⟩)) :
    snmpRecv cr users buf.bytes = .ok (withBody
      { s with scopeLen := buf.sdg.scopeLen, contextId := snmpv3EngineId } buf.sdg) := by
  rw [hplain] at hexact hsecurity
  have hrun := (scopeDecode_parses he hv hok hlist hexact s).2 buf.blank.head post
  have hflags : s.msgFlags = buf.sdg.msgFlags :=
    (userSecurity_keeps_fields cr users _ _ _ _ hsecurity).2
  refine snmpRecv_eq_ok_iff.mpr ⟨_, Eq.trans ?_ hrun, ?_⟩
  swap
  · change s.msgFlags.length ≤ 4
    rw [hflags, hheader.flags]
    decide
  rw [snmpDecode_header cr users he hv hheader hlen, bind_eq_of_ok hsecurity]

/-- The user security model, once the user is looked up. -/
theorem userSecurity_apply (cr : Crypto) (users : List MibUser) (sdg : SnmpDatagram)
    (c : Cursor UInt8) : userSecurity cr users sdg c =
      (match mibUserSearch users (cString sdg.userName) with
      | none => pure { sdg with recvBuf := c.buf, user := none }
      | some user =>
        let sdg := { sdg with recvBuf := c.buf, user := some user }
        if sdg.hasFlag snmpSecurFlagAuth then
          let sdg := snmpMsgAuthen cr user sdg
          if sdg.authErr = 0 ∧ sdg.hasFlag snmpSecurFlagEncrypt = true then do
            decryptScopedPdu cr user sdg
            pure sdg
          else pure sdg
        else pure sdg : MsgReader SnmpDatagram) c := by
  rw [userSecurity, get_bind_apply]
  cases mibUserSearch users (cString sdg.userName) <;> rfl

theorem userSecurity_noAuth (cr : Crypto) (users : List MibUser)
    (hauth : sdg.hasFlag snmpSecurFlagAuth = false) (c : Cursor UInt8) :
    userSecurity cr users sdg c = .ok ({ sdg with
      recvBuf := c.buf, user := mibUserSearch users (cString sdg.userName) }, c) := by
  rw [userSecurity_apply]
  cases mibUserSearch users (cString sdg.userName) with
  | none => rfl
  | some user =>
    have hauth' : SnmpDatagram.hasFlag { sdg with recvBuf := c.buf, user := some user }
      snmpSecurFlagAuth = false := hauth
    simp only [hauth', Bool.false_eq_true, if_false]
    rfl

/-- The MAC array has 20 octets. -/
theorem userMac_length (cr : Crypto) (user : MibUser) (msg : List UInt8) :
    (userMac cr user msg).2.length = 20 := by
  simp [userMac]

/-- The authentication step accepts a signature. -/
theorem snmpMsgAuthen_eq (hret : (userMac cr user sdg.recvBuf).1 = 0)
    (hpara : sdg.authPara = (userMac cr user sdg.recvBuf).2.take sdg.authPara.length) :
    snmpMsgAuthen cr user sdg = sdg := by
  rw [snmpMsgAuthen]
  dsimp only
  rw [if_neg (not_not.mpr hret), if_neg (not_not.mpr hpara.symm)]

/-- Signing changes the authentication parameters only. -/
theorem snmpMsgSignature_blank (cr : Crypto) (user : MibUser) (buf : SendBuf) :
    (snmpMsgSignature cr user buf).blank = buf.blank := by
  simp only [SendBuf.blank, snmpMsgSignature, peekBytes_length]

theorem snmpMsgSignature_authPara (cr : Crypto) (user : MibUser)
    (hpara : buf.sdg.authPara.length = 12) (hlen : buf.blank.bytes.length = buf.sendLen.toNat) :
    (snmpMsgSignature cr user buf).sdg.authPara =
      (userMac cr user buf.blank.bytes).2.take 12 := by
  change peekBytes (userMac cr user (peekBytes buf.blank.bytes buf.sendLen.toNat)).2
    buf.sdg.authPara.length = _
  rw [← hlen, peekBytes_of_le le_rfl, take_length, hpara,
    peekBytes_of_le (by rw [userMac_length]; decide)]

/-- What the decoder knows of a signed message when it checks the signature. -/
def signedDatagram (cr : Crypto) (user : MibUser) (buf : SendBuf) : SnmpDatagram :=
  let signed := snmpMsgSignature cr user buf
  { withHeader (startOf signed.sdg) signed.sdg with
    recvBuf := buf.blank.bytes
    user := some user }

/-- **The signature is accepted**: the user security model of a signed message goes on with
the decryption when the flag says so. -/
theorem userSecurity_signed (hret : ∀ msg, (userMac cr user msg).1 = 0)
    (hsearch : mibUserSearch users (cString buf.sdg.userName) = some user)
    (hauth : buf.sdg.hasFlag snmpSecurFlagAuth = true) (hpara : buf.sdg.authPara.length = 12)
    (hlen : buf.blank.bytes.length = buf.sendLen.toNat) (pos : ℕ) :
    userSecurity cr users (withHeader (startOf (snmpMsgSignature cr user buf).sdg)
        (snmpMsgSignature cr user buf).sdg) ⟨buf.blank.bytes, pos⟩ =
      (if buf.sdg.hasFlag snmpSecurFlagEncrypt then do
        decryptScopedPdu cr user (signedDatagram cr user buf)
        pure (signedDatagram cr user buf)
      else pure (signedDatagram cr user buf)) ⟨buf.blank.bytes, pos⟩ := by
  have hauthen : snmpMsgAuthen cr user (signedDatagram cr user buf) =
      signedDatagram cr user buf := by
    have htwelve : (snmpMsgSignature cr user buf).sdg.authPara.length = 12 :=
      (peekBytes_length _ _).trans hpara
    refine snmpMsgAuthen_eq (hret _) ?_
    change (snmpMsgSignature cr user buf).sdg.authPara = (userMac cr user buf.blank.bytes).2.take
      (snmpMsgSignature cr user buf).sdg.authPara.length
    rw [htwelve]
    exact snmpMsgSignature_authPara cr user hpara hlen
  have hsearch' : mibUserSearch users (cString (withHeader (startOf (snmpMsgSignature cr user
      buf).sdg) (snmpMsgSignature cr user buf).sdg).userName) = some user := hsearch
  have hauth' : (signedDatagram cr user buf).hasFlag snmpSecurFlagAuth = true := hauth
  rw [userSecurity_apply, hsearch']
  change (if (signedDatagram cr user buf).hasFlag snmpSecurFlagAuth then
    let sdg := snmpMsgAuthen cr user (signedDatagram cr user buf)
    if sdg.authErr = 0 ∧ sdg.hasFlag snmpSecurFlagEncrypt = true then do
      decryptScopedPdu cr user sdg
      pure sdg
    else pure sdg
    else _ : MsgReader SnmpDatagram) _ = _
  rw [if_pos hauth', hauthen]
  by_cases hencrypt : buf.sdg.hasFlag snmpSecurFlagEncrypt = true
  · rw [if_pos ⟨rfl, hencrypt⟩, if_pos hencrypt]
  · rw [if_neg fun h => hencrypt h.2, if_neg hencrypt]

/-- **The decryption undoes the encryption**: where the cipher text stood, the plain text
stands now, and the cursor is at its start. -/
theorem decryptScopedPdu_apply
    (haes : ∀ key iv msg, cr.aesDecrypt key iv (cr.aesEncrypt key iv msg) = msg)
    (hpriv : user.secrets.privMode = snmpUserEncryptAes) {plain : List UInt8}
    (hlen : plain.length = len.toNat) (pre : List UInt8) :
    ∃ post, decryptScopedPdu cr user sdg ⟨pre ++ (Tlv.prim asn1TagOctstr len
        (cr.aesEncrypt (user.secrets.privKey.take 16) (privIv sdg) plain)).bytes berLengthEnc,
          pre.length⟩ =
      .ok ((), ⟨pre ++ (plain ++ post), pre.length⟩) := by
  set cipher := cr.aesEncrypt (user.secrets.privKey.take 16) (privIv sdg) plain with hcipher
  set hdr := header berLengthEnc asn1TagOctstr len with hhdr
  have hclen : cipher.length = len.toNat := (cr.aesEncrypt_length _ _ _).trans hlen
  have hplain : snmpMsgDecrypt cr user sdg cipher = plain := by
    rw [snmpMsgDecrypt, if_pos hpriv, hcipher, haes]
  rw [Tlv.bytes, ← hhdr]
  generalize hbuf : pre ++ (hdr ++ cipher) = buf
  have hopen : readOpen asn1TagOctstr .encryptPduTag ⟨buf, pre.length⟩ =
      .ok (len, ⟨buf, pre.length + hdr.length⟩) :=
    (readOpen_parses _ _ _).run pre cipher hbuf.symm rfl
  have hoctets : (octets len.toNat : MsgReader _) ⟨buf, pre.length + hdr.length⟩ =
      .ok (cipher, ⟨buf, pre.length + hdr.length + cipher.length⟩) :=
    (Parses.octets hclen).run (pre ++ hdr) [] (by rw [← hbuf]; simp) (by simp)
  refine ⟨(hdr ++ cipher).drop plain.length, ?_⟩
  rw [decryptScopedPdu, get_bind_apply, bind_eq_of_ok hopen, bind_eq_of_ok hoctets,
    moveTo_bind_apply, hplain]
  have htake : plain.length = ((hdr ++ cipher).take plain.length).length := by
    rw [length_take, length_append, hclen, hlen]
    omega
  have hsplice := splice_append pre ((hdr ++ cipher).drop plain.length) htake
  rw [take_append_drop, hbuf] at hsplice
  rw [← hsplice]
  rfl

/-! ### Whole messages -/

/-- What the round trip asks of a datagram: the integer lengths and the lengths of the
varbinds are as the agent sets them, names, OIDs and values fit, and a message of SNMPv3 with
the AUTH flag belongs to a known user, with parameters of twelve octets and, for encryption,
eight octets of privacy parameters and a privacy algorithm. The message can be handed to
`snmp_recv`, whose length is 32 bits wide. -/
structure Encodable (users : List MibUser) (sdg : SnmpDatagram) : Prop where
  echoes : EchoesLengths sdg
  sized : Sized sdg
  body : BodyOk sdg
  header : 3 ≤ sdg.version → HeaderOk sdg
  auth : 3 ≤ sdg.version → sdg.hasFlag snmpSecurFlagAuth = true →
    sdg.authPara.length = 12 ∧ sdg.user.isSome ∧
      mibUserSearch users (cString sdg.userName) = sdg.user
  encrypt : 3 ≤ sdg.version → sdg.hasFlag snmpSecurFlagEncrypt = true →
    sdg.hasFlag snmpSecurFlagAuth = true ∧ sdg.privPara.length = 8 ∧
      ∀ user, sdg.user = some user → user.secrets.privMode = snmpUserEncryptAes
  size : responseSize sdg < 2 ^ 32

theorem Encodable.encryptsCounted (h : Encodable users sdg) : EncryptsCounted sdg := by
  intro hc
  obtain ⟨hv, hflag⟩ : 3 ≤ sdg.version ∧ sdg.hasFlag snmpSecurFlagEncrypt = true := by
    simpa [countsCipher] using hc
  obtain ⟨hauth, -, hpriv⟩ := h.encrypt hv hflag
  obtain ⟨user, huser⟩ := isSome_iff_exists.mp (h.auth hv hauth).2.1
  exact ⟨hauth, user, huser, hpriv user huser⟩

/-- What is recovered. The engine and the context id are those of the agent, which every
response carries. -/
structure Recovers (sdg sdg' : SnmpDatagram) : Prop where
  version : sdg'.version = sdg.version
  header : 3 ≤ sdg.version →
    sdg'.msgId = sdg.msgId ∧ sdg'.msgMaxSize = sdg.msgMaxSize ∧ sdg'.msgFlags = sdg.msgFlags ∧
      sdg'.msgSecurityModel = sdg.msgSecurityModel ∧ sdg'.engineId = snmpv3EngineId ∧
      sdg'.engineBoots = sdg.engineBoots ∧ sdg'.engineTime = sdg.engineTime ∧
      sdg'.userName = sdg.userName ∧ sdg'.contextId = snmpv3EngineId
  user : 3 ≤ sdg.version → sdg.hasFlag snmpSecurFlagAuth = true → sdg'.user = sdg.user
  authentic : sdg'.authErr = 0
  contextName : sdg'.contextName = sdg.contextName
  pduType : sdg'.pduHdr.pduType = sdg.pduHdr.pduType
  reqId : sdg'.pduHdr.reqId = sdg.pduHdr.reqId
  errStat : sdg'.pduHdr.errStat = sdg.pduHdr.errStat
  errIdx : sdg'.pduHdr.errIdx = sdg.pduHdr.errIdx
  varBinds : sdg'.vbInList = sdg.vbOutList.map VarBind.received

/-- A datagram whose lengths and parameters were set on the way out. -/
structure SameContent (sdg d : SnmpDatagram) : Prop where
  eq : d = { sdg with
    dataLen := d.dataLen
    pduHdr := { sdg.pduHdr with pduLen := d.pduHdr.pduLen }
    scopeLen := d.scopeLen
    securParaLen := d.securParaLen
    securStrLen := d.securStrLen
    msgLen := d.msgLen
    authPara := d.authPara
    privPara := d.privPara }
  auth : d.authPara.length = sdg.authPara.length
  priv : d.privPara.length = sdg.privPara.length

theorem SameParas.sameContent {d : SnmpDatagram} (h : SameParas (asn1EncodeTry sdg) d) :
    SameContent sdg d := by
  have heq := h.eq
  have hauth := h.auth
  have hpriv := h.priv
  rw [asn1EncodeTry_eq] at heq hauth hpriv
  refine ⟨?_, hauth, hpriv⟩
  rw [heq]

section Content

variable {users : List MibUser} {sdg d : SnmpDatagram}

theorem SameContent.echoes (h : SameContent sdg d) (he : EchoesLengths sdg) :
    EchoesLengths d := by
  rw [h.eq]
  exact ⟨he.version, he.reqId, he.errStat, he.errIdx, he.msgId, he.msgSize, he.msgModel,
    he.engineBoots, he.engineTime⟩

theorem SameContent.body (h : SameContent sdg d) (hb : BodyOk sdg) : BodyOk d := by
  rw [h.eq]
  exact ⟨hb.contextName, hb.vbs⟩

theorem SameContent.header (h : SameContent sdg d) (hh : HeaderOk sdg) : HeaderOk d := by
  refine ⟨?_, ?_, by rw [h.auth]; exact hh.authPara, by rw [h.priv]; exact hh.privPara⟩
  · rw [h.eq]
    exact hh.flags
  · rw [h.eq]
    exact hh.userName

/-- What is recovered from a message whose header and body are those of the datagram. -/
theorem SameContent.recovers (h : SameContent sdg d) {s : SnmpDatagram}
    (hs : if 3 ≤ sdg.version then ∃ buf user, s = { withHeader (startOf d) d with
        recvBuf := buf, user := user, scopeLen := d.scopeLen, contextId := snmpv3EngineId } ∧
        (sdg.hasFlag snmpSecurFlagAuth = true → user = sdg.user)
      else s = startOf d) : Recovers sdg (withBody s d) := by
  obtain ⟨heq, -, -⟩ := h
  split at hs
  · next hv =>
      obtain ⟨buf, user, rfl, huser⟩ := hs
      rw [heq]
      exact ⟨rfl, fun _ => ⟨rfl, rfl, rfl, rfl, rfl, rfl, rfl, rfl, rfl⟩, fun _ => huser, rfl, rfl,
        rfl, rfl, rfl, rfl, rfl⟩
  · next hv =>
      subst hs
      rw [heq]
      exact ⟨rfl, fun h => absurd h hv, fun h => absurd h hv, rfl, rfl, rfl, rfl, rfl, rfl, rfl⟩

end Content

/-- Blanking keeps the number of octets. -/
theorem SendBuf.blank_bytes_length (buf : SendBuf) :
    buf.blank.bytes.length = buf.bytes.length := by
  have hbody : buf.blank.body = buf.body := rfl
  rw [SendBuf.bytes_eq, SendBuf.bytes_eq, hbody, length_append, length_append]
  simp only [SendBuf.head, SendBuf.blank, headerTlvs, length_append, bytesList_cons]
  by_cases hv : 3 ≤ buf.sdg.version
  · simp only [hv, if_true, headerTlvsV3, securityParameterEncode, octstrTlv, Tlv.bytes,
      bytesList_cons, bytesList_nil, length_append, length_replicate,
      globalDataEncode]
  · simp only [hv, if_false]

/-- The body of a message without a cipher text is its plain text. -/
theorem SendBuf.blank_bytes_plain (h : buf.cipher = none) :
    buf.blank.bytes =
      buf.blank.head ++ (bytesList berLengthEnc buf.plain ++ []) := by
  have hbody : buf.blank.body = bytesList berLengthEnc buf.plain := by
    have hblank : buf.blank.cipher = none := h
    rw [SendBuf.body, hblank]
    rfl
  rw [SendBuf.bytes_eq, hbody, append_nil]

/-- The body of an encrypted message is the cipher text. -/
theorem cipherBuf_blank_bytes {vbs : List Tlv} {cipher : List UInt8}
    (hcipher : cipher.length = (snmpScopePduLen sdg).toNat)
    (hplain : (bytesList berLengthEnc (scopeTlvs sdg vbs)).length = (snmpScopePduLen sdg).toNat) :
    (cipherBuf sdg vbs cipher).blank.bytes = (cipherBuf sdg vbs cipher).blank.head ++
      (Tlv.prim asn1TagOctstr (snmpScopePduLen sdg) cipher).bytes berLengthEnc := by
  have hdrop : (bytesList berLengthEnc (scopeTlvs sdg vbs)).drop
      ((Tlv.prim asn1TagOctstr (snmpScopePduLen sdg) cipher).bytes berLengthEnc).length = [] := by
    refine drop_eq_nil_of_le ?_
    rw [hplain, Tlv.bytes, length_append, hcipher]
    omega
  have hbody : (cipherBuf sdg vbs cipher).blank.body =
      (Tlv.prim asn1TagOctstr (snmpScopePduLen sdg) cipher).bytes berLengthEnc := by
    change pokeBytes _ _ = _
    rw [pokeBytes]
    exact (congrArg (_ ++ ·) hdrop).trans (append_nil _)
  rw [SendBuf.bytes_eq, hbody]

/-- A buffer that holds the response to a datagram. -/
structure Holds (sdg : SnmpDatagram) (buf : SendBuf) : Prop where
  content : SameContent sdg buf.sdg
  plain : buf.plain = scopeTlvs buf.sdg (sdg.vbOutList.map varBindTree)
  wellFormed : buf.WellFormed

section Holds

variable {cr : Crypto} {users : List MibUser} {sdg : SnmpDatagram} {buf : SendBuf}

theorem Holds.vbOutList_eq (h : Holds sdg buf) : buf.sdg.vbOutList = sdg.vbOutList := by
  rw [h.content.eq]

theorem Holds.version_eq (h : Holds sdg buf) : buf.sdg.version = sdg.version := by
  rw [h.content.eq]

theorem Holds.plain_eq (h : Holds sdg buf) :
    buf.plain = scopeTlvs buf.sdg (buf.sdg.vbOutList.map varBindTree) := by
  rw [h.vbOutList_eq]
  exact h.plain

theorem Holds.list_eq (h : Holds sdg buf) (hsized : Sized sdg) :
    buf.sdg.vbListLen = total berLengthEnc (buf.sdg.vbOutList.map varBindTree) := by
  rw [h.vbOutList_eq, ← hsized.list, h.content.eq]

/-- The plain text of a well-formed message is exact. -/
theorem Holds.exact (h : Holds sdg buf) : ExactList berLengthEnc buf.plain :=
  (forallList_append.mp (forallList_append.mp h.wellFormed.values).1).2

theorem Holds.recv_plain (h : Holds sdg buf) (hok : Encodable users sdg)
    (hv : ¬3 ≤ sdg.version) (hcipher : buf.cipher = none) :
    ∃ sdg', snmpRecv cr users buf.bytes = .ok sdg' ∧ Recovers sdg sdg' := by
  refine ⟨_, snmpRecv_of_body cr users (h.content.echoes hok.echoes) (by rwa [h.version_eq])
    h.wellFormed.written (h.content.body hok.body) (h.list_eq hok.sized) h.plain_eq hcipher h.exact,
    h.content.recovers ?_⟩
  rw [if_neg hv]

/-- A response of SNMPv3 is recovered when the user security model gives way to its scoped
PDU. -/
theorem Holds.recv_security (h : Holds sdg buf) (hok : Encodable users sdg)
    (hv : 3 ≤ sdg.version) (octs post : List UInt8) {user : Option MibUser}
    (huser : sdg.hasFlag snmpSecurFlagAuth = true → user = sdg.user)
    (hsecurity : userSecurity cr users (withHeader (startOf buf.sdg) buf.sdg)
        ⟨buf.blank.bytes, buf.blank.head.length⟩ =
      .ok ({ withHeader (startOf buf.sdg) buf.sdg with recvBuf := octs, user := user },
        ⟨buf.blank.head ++ (bytesList berLengthEnc buf.plain ++ post),
          buf.blank.head.length⟩)) :
    ∃ sdg', snmpRecv cr users buf.bytes = .ok sdg' ∧ Recovers sdg sdg' := by
  refine ⟨_, snmpRecv_of_security (h.content.echoes hok.echoes) (by rwa [h.version_eq])
    (h.content.header (hok.header hv)) h.wellFormed.written (h.content.body hok.body)
    (h.list_eq hok.sized) h.plain_eq h.exact hsecurity, h.content.recovers ?_⟩
  rw [if_pos hv]
  exact ⟨octs, user, rfl, huser⟩

theorem Holds.recv_noAuth (h : Holds sdg buf) (hok : Encodable users sdg)
    (hv : 3 ≤ sdg.version) (hauth : sdg.hasFlag snmpSecurFlagAuth = false)
    (hcipher : buf.cipher = none) :
    ∃ sdg', snmpRecv cr users buf.bytes = .ok sdg' ∧ Recovers sdg sdg' := by
  have hauth' : (withHeader (startOf buf.sdg) buf.sdg).hasFlag snmpSecurFlagAuth = false := by
    rw [h.content.eq]
    exact hauth
  have hsecurity := userSecurity_noAuth cr users hauth'
    ⟨buf.blank.bytes, buf.blank.head.length⟩
  have huser : sdg.hasFlag snmpSecurFlagAuth = true →
      mibUserSearch users (cString (withHeader (startOf buf.sdg) buf.sdg).userName) = sdg.user :=
    fun hcon => absurd hcon (by rw [hauth]; decide)
  refine h.recv_security hok hv buf.blank.bytes [] huser (hsecurity.trans ?_)
  rw [← SendBuf.blank_bytes_plain hcipher]

/-- A signed response is recovered, when the decryption of an encrypted one brings the plain
text back. -/
theorem Holds.recv_signed (h : Holds sdg (snmpMsgSignature cr user buf)) (hok : Encodable users sdg)
    (hv : 3 ≤ sdg.version) (hauth : sdg.hasFlag snmpSecurFlagAuth = true)
    (huser : sdg.user = some user) (hret : ∀ msg, (userMac cr user msg).1 = 0) (post : List UInt8)
    (hbody : (if buf.sdg.hasFlag snmpSecurFlagEncrypt then
        decryptScopedPdu cr user (signedDatagram cr user buf)
      else pure () : MsgReader Unit) ⟨buf.blank.bytes, buf.blank.head.length⟩ =
        .ok ((), ⟨buf.blank.head ++ (bytesList berLengthEnc buf.plain ++ post),
          buf.blank.head.length⟩)) :
    ∃ sdg', snmpRecv cr users (snmpMsgSignature cr user buf).bytes = .ok sdg' ∧
      Recovers sdg sdg' := by
  obtain ⟨hpara, -, hsearch⟩ := hok.auth hv hauth
  have hblank := snmpMsgSignature_blank cr user buf
  have hpara' : buf.sdg.authPara.length = 12 :=
    (peekBytes_length _ _).symm.trans (h.content.auth.trans hpara)
  have hflags : buf.sdg.msgFlags = sdg.msgFlags := by
    change (snmpMsgSignature cr user buf).sdg.msgFlags = _
    rw [h.content.eq]
  have hauth' : buf.sdg.hasFlag snmpSecurFlagAuth = true := by
    rw [SnmpDatagram.hasFlag, hflags]
    exact hauth
  have hname : buf.sdg.userName = sdg.userName := by
    change (snmpMsgSignature cr user buf).sdg.userName = _
    rw [h.content.eq]
  have hlen : buf.blank.bytes.length = buf.sendLen.toNat := by
    rw [← hblank, SendBuf.blank_bytes_length]
    exact h.wellFormed.written
  have hsecurity := userSecurity_signed hret (by rw [hname, hsearch, huser]) hauth' hpara' hlen
    buf.blank.head.length
  refine h.recv_security hok hv buf.blank.bytes post (fun _ => huser.symm) ?_
  rw [hblank]
  refine hsecurity.trans ?_
  by_cases hencrypt : buf.sdg.hasFlag snmpSecurFlagEncrypt = true
  · rw [if_pos hencrypt] at hbody ⊢
    rw [bind_eq_of_ok hbody]
    rfl
  · rw [if_neg hencrypt] at hbody ⊢
    obtain ⟨-, hcursor⟩ := Prod.mk.inj (Except.ok.inj hbody)
    rw [hcursor]
    rfl

end Holds

section Response

variable {cr : Crypto} {users : List MibUser} {user : MibUser} {sdg : SnmpDatagram}

theorem plainBuf_holds (hwf : (plainBuf sdg).WellFormed) : Holds sdg (plainBuf sdg) :=
  ⟨(SameParas.refl _).sameContent, rfl, hwf⟩

theorem Encodable.recv_signature (h : Encodable users sdg) (hv : 3 ≤ sdg.version)
    (hauth : sdg.hasFlag snmpSecurFlagAuth = true)
    (hencrypt : sdg.hasFlag snmpSecurFlagEncrypt = false) (huser : sdg.user = some user)
    (hret : ∀ msg, (userMac cr user msg).1 = 0)
    (hwf : (snmpMsgSignature cr user (plainBuf sdg)).WellFormed) :
    ∃ sdg', snmpRecv cr users (snmpMsgSignature cr user (plainBuf sdg)).bytes = .ok sdg' ∧
      Recovers sdg sdg' := by
  have hholds : Holds sdg (snmpMsgSignature cr user (plainBuf sdg)) :=
    ⟨SameParas.sameContent ⟨rfl, peekBytes_length _ _, rfl⟩, rfl, hwf⟩
  have hencrypt' : (plainBuf sdg).sdg.hasFlag snmpSecurFlagEncrypt = false := by
    rw [← hencrypt, plainBuf, asn1EncodeTry_eq]
    rfl
  refine hholds.recv_signed h hv hauth huser hret [] ?_
  rw [hencrypt', if_neg Bool.false_ne_true, SendBuf.blank_bytes_plain rfl]
  rfl

/-- The encrypted response. -/
def encryptedBuf (cr : Crypto) (rnd : UInt32 × UInt32) (user : MibUser) (sdg : SnmpDatagram) :
    SendBuf :=
  let m := asn1EncodeTry sdg
  let vbs := sdg.vbOutList.map varBindTree
  cipherBuf { m with privPara := peekBytes (privSalt rnd) m.privPara.length } vbs
    (cipherOf cr rnd user m vbs)

/-- The cipher is that of the whole plain text, with the iv that the receiver derives. -/
theorem cipherOf_encryptedBuf (rnd : UInt32 × UInt32) (hlen : sdg.privPara.length = 8)
    (hplain : (bytesList berLengthEnc (encryptedBuf cr rnd user sdg).plain).length =
      (snmpScopePduLen (asn1EncodeTry sdg)).toNat) :
    cipherOf cr rnd user (asn1EncodeTry sdg) (sdg.vbOutList.map varBindTree) =
      cr.aesEncrypt (user.secrets.privKey.take 16)
        (privIv (signedDatagram cr user (encryptedBuf cr rnd user sdg)))
        (bytesList berLengthEnc (encryptedBuf cr rnd user sdg).plain) := by
  have hsalt : (signedDatagram cr user (encryptedBuf cr rnd user sdg)).privPara =
      privSalt rnd := by
    have hlength : (asn1EncodeTry sdg).privPara.length = (privSalt rnd).length := by
      rw [asn1EncodeTry_eq]
      exact hlen
    change peekBytes (privSalt rnd) (asn1EncodeTry sdg).privPara.length = _
    rw [hlength, peekBytes_of_le le_rfl, take_length]
  have hiv : privIv { asn1EncodeTry sdg with privPara := privSalt rnd } =
      privIv (signedDatagram cr user (encryptedBuf cr rnd user sdg)) := by
    rw [← hsalt]
    rfl
  change cr.aesEncrypt _ (privIv { asn1EncodeTry sdg with privPara := privSalt rnd })
    (peekBytes (bytesList berLengthEnc (encryptedBuf cr rnd user sdg).plain) _) = _
  rw [hiv, ← hplain, peekBytes_of_le le_rfl, take_length]

theorem Encodable.recv_encrypted (rnd : UInt32 × UInt32) (h : Encodable users sdg)
    (hv : 3 ≤ sdg.version) (hencrypt : sdg.hasFlag snmpSecurFlagEncrypt = true)
    (huser : sdg.user = some user) (hret : ∀ msg, (userMac cr user msg).1 = 0)
    (haes : ∀ key iv msg, cr.aesDecrypt key iv (cr.aesEncrypt key iv msg) = msg)
    (hwf : (snmpMsgSignature cr user (encryptedBuf cr rnd user sdg)).WellFormed) :
    ∃ sdg', snmpRecv cr users (snmpMsgSignature cr user (encryptedBuf cr rnd user sdg)).bytes =
      .ok sdg' ∧ Recovers sdg sdg' := by
  obtain ⟨hauth, hlen, hpriv⟩ := h.encrypt hv hencrypt
  have hsame : SameParas (asn1EncodeTry sdg)
      (snmpMsgSignature cr user (encryptedBuf cr rnd user sdg)).sdg :=
    ⟨rfl, peekBytes_length _ _, peekBytes_length _ _⟩
  have hholds : Holds sdg (snmpMsgSignature cr user (encryptedBuf cr rnd user sdg)) :=
    ⟨hsame.sameContent, rfl, hwf⟩
  have hencrypt' : (encryptedBuf cr rnd user sdg).sdg.hasFlag snmpSecurFlagEncrypt = true := by
    rw [← hencrypt, encryptedBuf, asn1EncodeTry_eq]
    rfl
  have hcounts : countsCipher
      (snmpMsgSignature cr user (encryptedBuf cr rnd user sdg)).sdg = true := by
    rw [hholds.content.eq, countsCipher, Bool.and_eq_true, decide_eq_true_eq]
    exact ⟨hv, hencrypt⟩
  have hcipher := cipherOf_length cr rnd user (asn1EncodeTry sdg) (sdg.vbOutList.map varBindTree)
  -- the length that was counted for the plain text is its length
  obtain ⟨-, -, hplain, -⟩ := (messageTree_exact_iff hcounts _).mp
    ((wellFormed_cipher_iff (hsame.measured (asn1EncodeTry_measured sdg)) hcounts hcipher).mp hwf).1
  have hbytes : (encryptedBuf cr rnd user sdg).blank.bytes =
      (encryptedBuf cr rnd user sdg).blank.head ++ (Tlv.prim asn1TagOctstr
        (snmpScopePduLen (asn1EncodeTry sdg)) (cipherOf cr rnd user (asn1EncodeTry sdg)
          (sdg.vbOutList.map varBindTree))).bytes berLengthEnc :=
    cipherBuf_blank_bytes hcipher hplain
  have hplain' : (bytesList berLengthEnc (encryptedBuf cr rnd user sdg).plain).length =
      (snmpScopePduLen (asn1EncodeTry sdg)).toNat := hplain
  obtain ⟨post, hdecrypt⟩ := decryptScopedPdu_apply haes (hpriv user huser) hplain'
    (encryptedBuf cr rnd user sdg).blank.head
  refine hholds.recv_signed h hv hauth huser hret post ?_
  rw [if_pos hencrypt', hbytes, cipherOf_encryptedBuf rnd hlen hplain']
  exact hdecrypt

end Response

/-- **Decoding undoes encoding**: the octets of a response are accepted by `snmp_recv`, and
what they say is recovered. The MAC may be any function that does not fail; AES decryption is
the inverse of AES encryption. -/
theorem snmpRecv_snmpResponse (cr : Crypto) (rnd : UInt32 × UInt32) {users : List MibUser}
    {sdg : SnmpDatagram} (h : Encodable users sdg)
    (hmac : ∀ user, sdg.user = some user → ∀ msg, (userMac cr user msg).1 = 0)
    (haes : ∀ key iv msg, cr.aesDecrypt key iv (cr.aesEncrypt key iv msg) = msg) :
    ∃ buf, snmpResponse cr rnd sdg = some buf ∧ buf.bytes.length = buf.sendLen.toNat ∧
      ∃ sdg', snmpRecv cr users buf.bytes = .ok sdg' ∧ Recovers sdg sdg' := by
  obtain ⟨buf, hbuf, hwf⟩ := (h.sized.encodesWellFormed_iff cr rnd).mpr
    ⟨h.echoes, fun vb hvb => (h.body.vbs vb hvb).octets, h.encryptsCounted, h.size⟩
  refine ⟨buf, hbuf, hwf.written, ?_⟩
  rw [h.sized.snmpResponse_eq] at hbuf
  change protectMessage cr rnd (plainBuf sdg) = some buf at hbuf
  have hversion : (plainBuf sdg).sdg.version = sdg.version := by rw [plainBuf, asn1EncodeTry_eq]
  have hsuser : (plainBuf sdg).sdg.user = sdg.user := by rw [plainBuf, asn1EncodeTry_eq]
  have hflag : ∀ flag, (plainBuf sdg).sdg.hasFlag flag = sdg.hasFlag flag := by
    intro flag
    rw [plainBuf, asn1EncodeTry_eq]
    rfl
  -- SNMPv3 with and without a signature and a cipher, then the earlier versions
  by_cases hv : 3 ≤ sdg.version
  · by_cases hauth : sdg.hasFlag snmpSecurFlagAuth = true
    · obtain ⟨user, huser⟩ := isSome_iff_exists.mp (h.auth hv hauth).2.1
      rw [protectMessage_eq cr rnd (plainBuf sdg) (by rwa [hversion]) (hsuser.trans huser)
        ((hflag _).trans hauth), hflag] at hbuf
      by_cases hencrypt : sdg.hasFlag snmpSecurFlagEncrypt = true
      · rw [if_pos hencrypt, plainBuf, snmpMsgEncrypt_eq cr rnd
          ((h.encrypt hv hencrypt).2.2 user huser)] at hbuf
        obtain rfl := some.inj hbuf
        exact h.recv_encrypted rnd hv hencrypt huser (hmac user huser) haes hwf
      · rw [if_neg hencrypt] at hbuf
        obtain rfl := some.inj hbuf
        exact h.recv_signature hv hauth (Bool.eq_false_iff.mpr hencrypt) huser (hmac user huser) hwf
    · have hbuf' : buf = plainBuf sdg := by
        simp only [protectMessage, hversion, hv, if_true, hflag, hauth] at hbuf
        split at hbuf <;> exact (some.inj hbuf).symm
      subst hbuf'
      exact (plainBuf_holds hwf).recv_noAuth h hv (Bool.eq_false_iff.mpr hauth) rfl
  · rw [protectMessage, hversion, if_neg hv] at hbuf
    obtain rfl := some.inj hbuf
    exact (plainBuf_holds hwf).recv_plain h hv rfl

/-- A user with MD5 and AES keys. -/
def sealedUser : MibUser :=
  ⟨[0x75], ⟨snmpUserAuthMd5, snmpUserEncryptAes, [0x61], [0x62]⟩, [[1]], []⟩

/-- The answer to a GET request of that user, to be encrypted and signed. -/
def sealedAnswer : SnmpDatagram where
  version := 3
  verLen := 1
  msgId := 5
  msgIdLen := 1
  msgMaxSize := 1500
  msgSizeLen := 2
  msgFlags := [0x03]
  msgSecurityModel := 3
  msgModelLen := 1
  engineBootsLen := 1
  engineTimeLen := 1
  userName := [0x75]
  user := some sealedUser
  authPara := List.replicate 12 0
  privPara := List.replicate 8 0
  contextName := [0x70]
  pduHdr := { pduType := snmpResp, reqIdLen := 1, reqId := 1, errStatLen := 1, errIdxLen := 1 }
  vbListLen := 9
  vbOutList := [{ oid := [1, 3, 0], vbLen := 7, valueType := asn1TagInt, value := [7] }]

/-- An encrypted and signed answer comes back. -/
theorem sealedAnswer_recovered :
    ∃ buf, snmpResponse plainCrypto (1, 2) sealedAnswer = some buf ∧
      buf.bytes.length = buf.sendLen.toNat ∧
      ∃ sdg', snmpRecv plainCrypto [sealedUser] buf.bytes = .ok sdg' ∧
        Recovers sealedAnswer sdg' := by
  have hvb : ∀ vb ∈ sealedAnswer.vbOutList, VarBindOk vb := by
    intro vb hvb
    obtain rfl := mem_singleton.mp hvb
    exact ⟨⟨[0x2B, 0], by decide, by decide⟩, by decide, by decide, by decide⟩
  have hsized : Sized sealedAnswer :=
    ⟨by decide, fun vb hvb => by
      obtain rfl := mem_singleton.mp hvb
      exact (summed_cons berLengthEnc).mpr ⟨by decide, trivial, trivial, trivial⟩, by decide⟩
  have hok : Encodable [sealedUser] sealedAnswer :=
    { echoes := ⟨by decide, by decide, by decide, by decide, fun _ => by decide, fun _ => by decide,
        fun _ => by decide, fun _ => by decide, fun _ => by decide⟩
      sized := hsized
      body := ⟨by decide, hvb⟩
      header := fun _ => ⟨by decide, by decide, .inr (by decide), .inr (by decide)⟩
      auth := fun _ _ => ⟨by decide, by decide, by decide⟩
      encrypt := fun _ _ => ⟨by decide, by decide, fun user huser => by
        obtain rfl := some.inj huser
        decide⟩
      size := by decide +kernel }
  refine snmpRecv_snmpResponse plainCrypto (1, 2) hok (fun user huser msg => ?_)
    fun _ _ _ => rfl
  obtain rfl := some.inj huser
  rfl

end SmithSnmp
