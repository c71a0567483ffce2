import SmithSnmp.Lib.Runs
import SmithSnmp.RoundTrip

/-!
# Traps

`core/snmp_trap.c`: varbinds are added to the one trap datagram until it is sent. The lengths
are added up in the datagram itself, so what is sent depends on its being cleared after every
trap; the lengths of the error status and the error index are taken of the lengths of the
previous trap.

The octets of a trap are those of a response of SNMPv2c, which the agent decodes. The lengths
have 32 bits: a larger trap does not fit into the buffer that is allocated for it. And the length of
an object identifier is found with 8 bits: one of more than 255 octets does not fit into the varbind
that is allocated for it.

## Main results

* `snmpTrapSend_eq`: what is sent is the response `trapAnswer`.
* `traps_decode_iff`: in a run, all values are written into their varbinds and every trap is decoded
  to the varbinds added since the previous one, if and only if the object identifiers among the
  values have at most 255 octets and the traps are smaller than `2 ^ 32`.
-/

namespace SmithSnmp

open List Lib
open Option hiding map_map

variable {vbs : List (Oid × Variable)} {community : List UInt8} {reqId : Int32}

/-- `SNMP_TRAP_V1` -/
def snmpTrapV1 : UInt8 := 0xA4
/-- `SNMP_TRAP_V2` -/
def snmpTrapV2 : UInt8 := 0xA7
/-- `TRAP_V1` -/
def trapV1 : UInt8 := 1
/-- `TRAP_V2` -/
def trapV2 : UInt8 := 2

/-- `struct trap_datagram` with the header of a trap of version 2 -/
structure TrapDatagram where
  sendLen : UInt32 := 0
  dataLen : UInt32 := 0
  version : Int32 := 0
  verLen : UInt32 := 0
  community : List UInt8 := []
  pduType : UInt8 := 0
  pduLen : UInt32 := 0
  reqId : Int32 := 0
  reqIdLen : UInt32 := 0
  errStat : Int32 := 0
  errStatLen : UInt32 := 0
  errIdx : Int32 := 0
  errIdxLen : UInt32 := 0
  vbListLen : UInt32 := 0
  vbCnt : UInt32 := 0
  vbList : List VarBind := []

/-- `trap_datagram_clear` -/
def trapDatagramClear (tdg : TrapDatagram) : TrapDatagram :=
  { tdg with
    vbList := []
    dataLen := 0
    sendLen := 0
    vbCnt := 0
    vbListLen := 0
    pduLen := 0 }

/-- The octets of the value of a variable. -/
def Variable.octets (var : Variable) : List UInt8 := berValueEnc var.value var.len.toNat var.tag

/-- The lengths of `snmp_trap_encode`, which are added to those of the datagram. -/
def trapSizes (tdg : TrapDatagram) : TrapDatagram :=
  let pduLen := tdg.pduLen + tlvLen tdg.vbListLen + tlvLen tdg.reqIdLen + tlvLen tdg.errStatLen +
    tlvLen tdg.errIdxLen
  let dataLen := tdg.dataLen + tlvLen pduLen + octstrLen tdg.community + tlvLen tdg.verLen
  { tdg with pduLen := pduLen, dataLen := dataLen, sendLen := tdg.sendLen + tlvLen dataLen }

/-- `snmp_trapv2_header` -/
def snmpTrapv2Header (tdg : TrapDatagram) : List Tlv :=
  [intTlv tdg.reqIdLen tdg.reqId, intTlv tdg.errStatLen tdg.errStat,
    intTlv tdg.errIdxLen tdg.errIdx]

/-- `snmp_trap_encode`: the datagram with its lengths, and the octets. For any other version
the buffer is freed and then still sent (`none`). -/
def snmpTrapEncode (tdg : TrapDatagram) : Option (TrapDatagram × List UInt8) :=
  let tdg := trapSizes tdg
  if tdg.version = trapV2.toUInt32.toInt32 then
    (tdg.vbList.mapM varBindTlv).map fun vbs =>
      (tdg, (Tlv.cons asn1TagSeq tdg.dataLen
        [intTlv tdg.verLen (tdg.version - 1), octstrTlv tdg.community,
          .cons tdg.pduType tdg.pduLen
            (snmpTrapv2Header tdg ++ [.cons asn1TagSeq tdg.vbListLen vbs])]).bytes berLengthEnc)
  else none

/-- `snmp_trap_varbind`; `none` when the length of an OID is never found. The value is written
whatever room there is for it. -/
def snmpTrapVarbind (oid : Oid) (var : Variable) (tdg : TrapDatagram) : Option TrapDatagram := do
  let valLen ← berValueEncTry var.value var.len.toNat var.tag
  let idLen ← berOidEncTry oid
  let vb : VarBind := {
    oid := oid
    vbLen := tlvLen (UInt32.ofNat idLen) + tlvLen (UInt32.ofNat var.octets.length)
    valueType := var.tag
    value := var.octets
    room := valLen }
  pure { tdg with
    vbListLen := tdg.vbListLen + tlvLen vb.vbLen
    vbList := tdg.vbList ++ [vb]
    vbCnt := tdg.vbCnt + 1 }

/-- What is handed to the socket. -/
structure TrapSent where
  /-- the octets that were written to `send_buf` -/
  octets : List UInt8
  sendLen : UInt32

/-- `snmp_trap_send`, with the random number of the request id. -/
def snmpTrapSend (version : UInt8) (community : List UInt8) (random : Int32)
    (tdg : TrapDatagram) : Option (TrapDatagram × TrapSent) :=
  let tdg := { tdg with
    version := version.toUInt32.toInt32
    verLen := 1
    community := community
    reqId := random
    reqIdLen := UInt32.ofNat (berIntEncTry random)
    errStat := 0
    -- the length is that of the length of the previous trap
    errStatLen := UInt32.ofNat (berIntEncTry tdg.errStatLen.toInt32)
    errIdx := 0
    errIdxLen := UInt32.ofNat (berIntEncTry tdg.errIdxLen.toInt32)
    pduType :=
      if version = trapV1 then snmpTrapV1
      else if version = trapV2 then snmpTrapV2
      else tdg.pduType }
  (snmpTrapEncode tdg).map fun (tdg, octets) => (trapDatagramClear tdg, ⟨octets, tdg.sendLen⟩)

/-! ### Runs -/

/-- A call of the trap interface. -/
inductive TrapCall where
  | varbind (oid : Oid) (var : Variable)
  | send (version : UInt8) (community : List UInt8) (random : Int32)

/-- A run: the trap datagram, the varbinds that were added since the previous trap, and the
traps that were sent. -/
structure TrapRun where
  tdg : TrapDatagram := {}
  /-- the varbinds since the previous trap -/
  added : List (Oid × Variable) := []
  sent : List TrapSent := []

/-- A call in a run. -/
def trapStep (s : TrapRun) : TrapCall → Option TrapRun
  | .varbind oid var =>
    (snmpTrapVarbind oid var s.tdg).map fun tdg =>
      { s with tdg := tdg, added := s.added ++ [(oid, var)] }
  | .send version community random =>
    (snmpTrapSend version community random s.tdg).map fun (tdg, trap) =>
      { tdg := tdg, sent := s.sent ++ [trap] }

/-- A varbind as it is received. -/
def receivedVarBind (vb : Oid × Variable) : VarBind :=
  { oid := vb.1, valueType := vb.2.tag, value := vb.2.octets }

/-- The octets of a trap are as many as are sent, and the agent decodes them to what was to be
sent. -/
structure TrapSent.Decodes (cr : Crypto) (users : List MibUser) (trap : TrapSent)
    (community : List UInt8) (reqId : Int32) (vbs : List (Oid × Variable)) : Prop where
  length : trap.octets.length = trap.sendLen.toNat
  decoded : ∃ sdg, snmpRecv cr users trap.octets = .ok sdg ∧ sdg.version = 1 ∧
    sdg.contextName = community ∧ sdg.pduHdr.pduType = snmpTrapV2 ∧ sdg.pduHdr.reqId = reqId ∧
      sdg.pduHdr.errStat = 0 ∧ sdg.pduHdr.errIdx = 0 ∧ sdg.vbInList = vbs.map receivedVarBind

/-- A varbind that is added has room for its value, and a trap that is sent is decoded to the
varbinds that were added since the previous one. -/
def SendsDecodable (cr : Crypto) (users : List MibUser) (s : TrapRun) :
    TrapCall → TrapRun → Prop
  | .varbind _ _, s' =>
    ∃ vb, s'.tdg.vbList = s.tdg.vbList ++ [vb] ∧ vb.value.length ≤ vb.room
  | .send _ community random, s' =>
    ∃ trap, s'.sent = s.sent ++ [trap] ∧ trap.Decodes cr users community random s.added

/-- The calls that are considered: names of at most 64 sub-identifiers and 255 octets that the
decoder can yield, values of at most 1024 octets, version 2, and communities of at most 40
octets. -/
def TrapCall.Admissible : TrapCall → Prop
  | .varbind oid var => VarBindOk (receivedVarBind (oid, var))
  | .send version community _ => version = trapV2 ∧ community.length ≤ 40

/-! ### Traps as responses -/

/-- The varbind with its length and the room for its value. -/
def trapVarBind (vb : Oid × Variable) : VarBind :=
  { receivedVarBind vb with
    vbLen := tlvLen (UInt32.ofNat ((berOidEncTry vb.1).getD 0)) +
      tlvLen (UInt32.ofNat vb.2.octets.length)
    room := (berValueEncTry vb.2.value vb.2.len.toNat vb.2.tag).getD 0 }

/-- The response that has the octets of a trap. -/
def trapAnswer (community : List UInt8) (reqId : Int32) (vbs : List (Oid × Variable)) :
    SnmpDatagram where
  version := 1
  verLen := 1
  contextName := community
  pduHdr := {
    pduType := snmpTrapV2
    reqId := reqId
    reqIdLen := UInt32.ofNat (berIntEncTry reqId)
    errStatLen := 1
    errIdxLen := 1 }
  vbListLen := Tlv.total berLengthEnc ((vbs.map trapVarBind).map varBindTree)
  vbOutList := vbs.map trapVarBind

/-- An object identifier that is added as a value has at most 255 octets, and a trap that is sent is
smaller than `2 ^ 32` in unbounded arithmetic. -/
def TrapFits (s : TrapRun) : TrapCall → Prop
  | .varbind _ var => var.tag = asn1TagObjid → var.octets.length ≤ 255
  | .send _ community random => responseSize (trapAnswer community random s.added) < 2 ^ 32

instance (s : TrapRun) (call : TrapCall) : Decidable (TrapFits s call) := by
  cases call <;> rw [TrapFits] <;> infer_instance

/-- What holds between two calls: the lengths of the previous trap are gone, and those of the
varbinds are those of the varbinds added since. -/
structure Collecting (s : TrapRun) : Prop where
  cleared : s.tdg.dataLen = 0 ∧ s.tdg.sendLen = 0 ∧ s.tdg.pduLen = 0
  errLens : (s.tdg.errStatLen = 0 ∨ s.tdg.errStatLen = 1) ∧
    (s.tdg.errIdxLen = 0 ∨ s.tdg.errIdxLen = 1)
  list : s.tdg.vbList = s.added.map trapVarBind
  listLen : s.tdg.vbListLen = Tlv.total berLengthEnc (s.tdg.vbList.map varBindTree)
  vbs : ∀ vb ∈ s.added, VarBindOk (receivedVarBind vb)

theorem trapAnswer_sized (community : List UInt8) (reqId : Int32)
    (h : ∀ vb ∈ vbs, VarBindOk (receivedVarBind vb)) : Sized (trapAnswer community reqId vbs) := by
  refine ⟨forall_mem_map.mpr fun vb hvb => (h vb hvb).isSome,
    forall_mem_map.mpr fun vb hvb => ?_, rfl⟩
  refine (Tlv.summed_cons berLengthEnc).mpr ⟨?_, trivial, trivial, trivial⟩
  simp only [Tlv.total, Tlv.len, spanOf_eq_tlvLen, UInt32.add_zero]
  rfl

variable {s : TrapRun}

/-- What `snmp_trap_varbind` does. -/
theorem snmpTrapVarbind_eq {oid : Oid} {var : Variable} {tdg tdg' : TrapDatagram}
    (h : snmpTrapVarbind oid var tdg = some tdg') :
    tdg' = { tdg with
        vbListLen := tdg.vbListLen + tlvLen (trapVarBind (oid, var)).vbLen
        vbList := tdg.vbList ++ [trapVarBind (oid, var)]
        vbCnt := tdg.vbCnt + 1 } ∧
      berValueEncTry var.value var.len.toNat var.tag = some (trapVarBind (oid, var)).room := by
  obtain ⟨valLen, hval, h⟩ := bind_eq_some_iff.mp h
  obtain ⟨idLen, hid, h⟩ := bind_eq_some_iff.mp h
  obtain rfl := some.inj h
  simp only [trapVarBind, receivedVarBind, hval, hid, getD_some, and_self]

theorem trapVarBind_room_iff {oid : Oid} {var : Variable}
    (h : berValueEncTry var.value var.len.toNat var.tag = some (trapVarBind (oid, var)).room) :
    var.octets.length ≤ (trapVarBind (oid, var)).room ↔
      (var.tag = asn1TagObjid → var.octets.length ≤ 255) := by
  have hroom := berValueEncTry_eq h
  rw [← Variable.octets] at hroom
  rw [hroom]
  split
  · next htag => simp only [htag, forall_const]; omega
  · next htag => simp [htag]

theorem Collecting.varbind (h : Collecting s) {oid : Oid} {var : Variable}
    (hok : VarBindOk (receivedVarBind (oid, var))) {tdg : TrapDatagram}
    (hadd : snmpTrapVarbind oid var s.tdg = some tdg) :
    Collecting { s with tdg := tdg, added := s.added ++ [(oid, var)] } := by
  obtain ⟨rfl, -⟩ := snmpTrapVarbind_eq hadd
  refine ⟨h.cleared, h.errLens, ?_, ?_, ?_⟩
  · rw [map_append, ← h.list, map_singleton]
  · simp only [map_append, map_singleton, Tlv.total_append, ← h.listLen, Tlv.total,
      spanOf_eq_tlvLen, UInt32.add_zero]
    rfl
  · intro vb hmem
    rcases mem_append.mp hmem with hmem | hmem
    · exact h.vbs vb hmem
    · rw [mem_singleton.mp hmem]
      exact hok

/-- **A trap** has the octets of a response, and leaves an empty datagram. -/
theorem snmpTrapSend_eq (h : Collecting s) (community : List UInt8) (random : Int32) :
    ∃ tdg, snmpTrapSend trapV2 community random s.tdg =
        some (tdg, ⟨(plainBuf (trapAnswer community random s.added)).bytes,
          (plainBuf (trapAnswer community random s.added)).sendLen⟩) ∧
      ∀ sent, Collecting { tdg := tdg, sent := sent } := by
  have hlen : ∀ len : UInt32, len = 0 ∨ len = 1 → UInt32.ofNat (berIntEncTry len.toInt32) = 1 := by
    rintro _ (rfl | rfl) <;> decide
  have hvbs : (s.added.map trapVarBind).mapM varBindTlv =
      some ((s.added.map trapVarBind).map varBindTree) :=
    mapM_varBindTlv (trapAnswer_sized community random h.vbs).oids
  obtain ⟨hdata, hsend, hpdu⟩ := h.cleared
  have hcounts : countsCipher (asn1EncodeTry (trapAnswer community random s.added)) = false := by
    rw [asn1EncodeTry_eq]
    rfl
  have hdataLen : (asn1EncodeTry (trapAnswer community random s.added)).dataLen =
      tlvLen (asn1EncodeTry (trapAnswer community random s.added)).pduHdr.pduLen +
        octstrLen community + tlvLen 1 :=
    congrArg (· + tlvLen 1) (UInt32.zero_add _)
  simp only [snmpTrapSend, snmpTrapEncode, trapSizes, if_true, hlen _ h.errLens.1,
    hlen _ h.errLens.2, h.list, h.listLen, hvbs, hdata, hsend, hpdu, UInt32.zero_add,
    map_some]
  refine ⟨_, congrArg (fun trap => some (_, trap)) (congrArg₂ TrapSent.mk ?_ ?_), fun sent =>
    ⟨⟨rfl, rfl, rfl⟩, ⟨.inr rfl, .inr rfl⟩, rfl, rfl, by simp⟩⟩
  · rw [plainBuf, ← messageTree_bytes hcounts, messageTree, hdataLen]
    rfl
  · rw [plainBuf, SendBuf.sendLen, hdataLen]
    rfl

/-! ### Traps are decoded -/

section Decoding

variable (cr : Crypto) (users : List MibUser)

/-- A response of SNMPv1 or SNMPv2c is as long as it says, and is recovered. -/
theorem Encodable.recv_plainBuf {users : List MibUser} {sdg : SnmpDatagram}
    (h : Encodable users sdg) (hv : ¬3 ≤ sdg.version) :
    (plainBuf sdg).bytes.length = (plainBuf sdg).sendLen.toNat ∧
      ∃ sdg', snmpRecv cr users (plainBuf sdg).bytes = .ok sdg' ∧ Recovers sdg sdg' := by
  obtain ⟨buf, hbuf, hwf⟩ := (h.sized.encodesWellFormed_iff cr (0, 0)).mpr
    ⟨h.echoes, fun vb hvb => (h.body.vbs vb hvb).octets, h.encryptsCounted, h.size⟩
  have hversion : (plainBuf sdg).sdg.version = sdg.version := by rw [plainBuf, asn1EncodeTry_eq]
  rw [h.sized.snmpResponse_eq] at hbuf
  change protectMessage cr (0, 0) (plainBuf sdg) = some buf at hbuf
  rw [protectMessage, hversion, if_neg hv] at hbuf
  obtain rfl := some.inj hbuf
  exact ⟨hwf.written, (plainBuf_holds hwf).recv_plain h hv rfl⟩

theorem trapAnswer_version : ¬3 ≤ (trapAnswer community reqId vbs).version :=
  (by decide : ¬(3 : Int32) ≤ 1)

theorem trapAnswer_echoes (community : List UInt8) (reqId : Int32) (vbs : List (Oid × Variable)) :
    EchoesLengths (trapAnswer community reqId vbs) where
  version := (by decide : Echoes 1 1)
  reqId := rfl
  errStat := (by decide : Echoes 1 0)
  errIdx := (by decide : Echoes 1 0)
  msgId hv := absurd hv trapAnswer_version
  msgSize hv := absurd hv trapAnswer_version
  msgModel hv := absurd hv trapAnswer_version
  engineBoots hv := absurd hv trapAnswer_version
  engineTime hv := absurd hv trapAnswer_version

/-- A trap that is smaller than `2 ^ 32` can be decoded. -/
theorem trapAnswer_encodable (hcommunity : community.length ≤ 40)
    (hvbs : ∀ vb ∈ vbs, VarBindOk (receivedVarBind vb))
    (hsize : responseSize (trapAnswer community reqId vbs) < 2 ^ 32) :
    Encodable users (trapAnswer community reqId vbs) where
  echoes := trapAnswer_echoes ..
  sized := trapAnswer_sized _ _ hvbs
  body := ⟨hcommunity, forall_mem_map.mpr fun vb hvb =>
    ⟨(hvbs vb hvb).decodable, (hvbs vb hvb).subIds, (hvbs vb hvb).octets, (hvbs vb hvb).value⟩⟩
  header hv := absurd hv trapAnswer_version
  auth hv := absurd hv trapAnswer_version
  encrypt hv := absurd hv trapAnswer_version
  size := hsize

/-- A trap whose octets can be counted is smaller than `2 ^ 32`. -/
theorem trapAnswer_size_lt (hvbs : ∀ vb ∈ vbs, VarBindOk (receivedVarBind vb))
    (hlt : (plainBuf (trapAnswer community reqId vbs)).bytes.length < 2 ^ 32) :
    responseSize (trapAnswer community reqId vbs) < 2 ^ 32 := by
  have hsized := trapAnswer_sized community reqId hvbs
  have hcounted : (responseTree (trapAnswer community reqId vbs)).Counted :=
    hsized.responseTree_counted.mpr ⟨trapAnswer_echoes ..,
      forall_mem_map.mpr fun vb hvb => (hvbs vb hvb).octets⟩
  have hcounts : countsCipher (asn1EncodeTry (trapAnswer community reqId vbs)) = false := by
    rw [asn1EncodeTry_eq]
    rfl
  rw [plainBuf, ← messageTree_bytes hcounts] at hlt
  have hexact := Tlv.exact_of_bytes_lt hsized.responseTree_summed hcounted hlt
  rw [responseSize, Tlv.size_eq hexact]
  exact hlt

/-- **A trap is decoded** if and only if it is smaller than `2 ^ 32`. -/
theorem trapAnswer_decodes_iff (hcommunity : community.length ≤ 40)
    (hvbs : ∀ vb ∈ vbs, VarBindOk (receivedVarBind vb)) :
    TrapSent.Decodes cr users ⟨(plainBuf (trapAnswer community reqId vbs)).bytes,
        (plainBuf (trapAnswer community reqId vbs)).sendLen⟩ community reqId vbs ↔
      responseSize (trapAnswer community reqId vbs) < 2 ^ 32 := by
  constructor
  · intro h
    refine trapAnswer_size_lt hvbs ?_
    rw [h.length]
    exact UInt32.toNat_lt _
  · intro hsize
    obtain ⟨hlength, sdg, hrecv, hrecovers⟩ :=
      (trapAnswer_encodable users hcommunity hvbs hsize).recv_plainBuf cr trapAnswer_version
    refine ⟨hlength, sdg, hrecv, hrecovers.version, hrecovers.contextName, hrecovers.pduType,
      hrecovers.reqId, hrecovers.errStat, hrecovers.errIdx, hrecovers.varBinds.trans ?_⟩
    rw [trapAnswer, map_map]
    rfl

/-- Nothing is collected at first. -/
theorem collecting_init : Collecting {} :=
  ⟨⟨rfl, rfl, rfl⟩, ⟨.inl rfl, .inl rfl⟩, rfl, rfl, by simp⟩

theorem Collecting.step {s' : TrapRun} (h : Collecting s) {call : TrapCall}
    (hcall : call.Admissible) (hstep : trapStep s call = some s') :
    Collecting s' ∧ (SendsDecodable cr users s call s' ↔ TrapFits s call) := by
  cases call with
  | varbind oid var =>
    obtain ⟨tdg, htdg, rfl⟩ := map_eq_some_iff.mp hstep
    refine ⟨h.varbind hcall htdg, Iff.trans ?_ (trapVarBind_room_iff (snmpTrapVarbind_eq htdg).2)⟩
    rw [SendsDecodable, (snmpTrapVarbind_eq htdg).1]
    constructor
    · rintro ⟨vb, hvb, hroom⟩
      obtain rfl := singleton_inj.mp (append_cancel_left hvb)
      exact hroom
    · exact fun hroom => ⟨_, rfl, hroom⟩
  | send version community random =>
    obtain ⟨rfl, hcommunity⟩ := hcall
    obtain ⟨tdg, hsend, hnext⟩ := snmpTrapSend_eq h community random
    rw [trapStep, hsend] at hstep
    obtain rfl := some.inj hstep
    refine ⟨hnext _, Iff.trans ?_ (trapAnswer_decodes_iff cr users hcommunity h.vbs)⟩
    constructor
    · rintro ⟨trap, htrap, hdecodes⟩
      obtain rfl := singleton_inj.mp (append_cancel_left htrap)
      exact hdecodes
    · exact fun hdecodes => ⟨_, rfl, hdecodes⟩

/-- **Traps are decoded.** In every run of admissible calls, every value is written into its varbind,
and every trap is as long as it says and is decoded to the varbinds that were added since the
previous one, if and only if the object identifiers among the values have at most 255 octets and
every trap is smaller than `2 ^ 32`. -/
theorem traps_decode_iff {calls : List TrapCall} (hcalls : ∀ call ∈ calls, call.Admissible) :
    EveryStep trapStep (SendsDecodable cr users) {} calls ↔
      EveryStep trapStep (fun s call _ => TrapFits s call) {} calls :=
  EveryStep.congr Collecting
    (fun _ _ _ hmem h hstep => (h.step cr users (hcalls _ hmem) hstep).2)
    (fun _ _ _ hmem h hstep _ => (h.step cr users (hcalls _ hmem) hstep).1) collecting_init

end Decoding

/-- A call that adds an integer under the name `1.3`. -/
def sampleVarbind : TrapCall :=
  .varbind [1, 3] { tag := asn1TagInt, len := 1, value := [7, 0, 0, 0] }

/-- A call that sends the trap. -/
def sampleSend : TrapCall := .send trapV2 [0x70] 5

theorem sample_admissible : sampleVarbind.Admissible ∧ sampleSend.Admissible :=
  ⟨⟨⟨[0x2B], by decide, by decide⟩, by decide, by decide, by decide⟩, rfl, by decide⟩

/-- Two traps, one after the other, are decoded. -/
theorem sampleTraps_decode :
    EveryStep trapStep (SendsDecodable plainCrypto []) {}
      [sampleVarbind, sampleSend, sampleVarbind, sampleVarbind, sampleSend] := by
  refine (traps_decode_iff plainCrypto [] ?_).mpr (by decide +kernel)
  simp only [mem_cons, not_mem_nil, or_false]
  rintro call (rfl | rfl | rfl | rfl | rfl)
  all_goals first | exact sample_admissible.1 | exact sample_admissible.2

/-! ### A value without room -/

/-- A call that adds an object identifier of 53 sub-identifiers and 256 octets. -/
def longOidVarbind : TrapCall :=
  .varbind [1, 3] {
    tag := asn1TagObjid
    len := 53
    value := ([1, 3] ++ List.replicate 51 0xffffffff : Oid).flatMap leBytes }

/-- **An object identifier of 256 octets** is an admissible value, and nothing is reserved for it. -/
theorem longOidTrap_overruns :
    (∀ call ∈ [longOidVarbind, sampleSend], call.Admissible) ∧
      (trapStep {} longOidVarbind).map
          (fun s => s.tdg.vbList.map fun vb => (vb.value.length, vb.room)) = some [(256, 0)] ∧
        ¬EveryStep trapStep (SendsDecodable plainCrypto []) {} [longOidVarbind, sampleSend] := by
  have hadded : (trapStep {} longOidVarbind).map
      (fun s => s.tdg.vbList.map fun vb => (vb.value.length, vb.room)) = some [(256, 0)] := by
    decide +kernel
  refine ⟨forall_mem_cons.mpr ⟨?_, forall_mem_singleton.mpr sample_admissible.2⟩, hadded,
    fun h => ?_⟩
  · exact ⟨⟨[0x2B], by decide, by decide⟩, by decide, by decide, by decide +kernel⟩
  · obtain ⟨s, hs, hvbs⟩ := map_eq_some_iff.mp hadded
    obtain ⟨vb, hvb, hroom⟩ := (h s hs).1
    rw [hvb] at hvbs
    obtain ⟨hlength, hzero⟩ := Prod.mk.inj (singleton_inj.mp hvbs)
    omega

end SmithSnmp
