import SmithSnmp.AgentxSet
import SmithSnmp.AgentxWire

/-!
# Byte Order of AgentX

Whether the byte order in which the master writes makes a difference. A request is compared in
network byte order and in little-endian order: what is decoded from it, and the response, read
in the order that its own flags announce. The decoder leaves sub-identifiers, values and
string lengths as they stand, and the encoder writes all numbers as they stand in memory, so
both hold only for numbers that read the same in both orders. The length of a payload below 65536
octets never does, so no response of that size can be read in network byte order.

## Main results

* `XRequest.datagram_eq_iff`: a request is decoded alike if and only if it is symmetric.
* `carries_iff_symmetric`: a response carries its answer in network byte order if and only if
  the answer is symmetric.
* `byteOrder_transparent_iff`: the two together.
-/

namespace SmithSnmp

open List Lib Reader Traced

/-! ### Symmetric requests -/

/-- All sub-identifiers read the same in both byte orders. -/
def WireOid.Symmetric (oid : WireOid) : Prop := ∀ id ∈ oid.ids, bswap32 id = id

/-- The ends of a range are symmetric. -/
def WireRange.Symmetric (sr : WireRange) : Prop := sr.start.Symmetric ∧ sr.stop.Symmetric

/-- The value reads the same in both byte orders; of strings, only the empty one is not
refused. -/
def WireValue.Symmetric : WireValue → Prop
  | .word v => bswap32 v = v
  | .long lo hi => bswap32 lo = hi
  | .string s => s = []
  | .objid oid => oid.Symmetric
  | .none => True

/-- Name and value of a varbind are symmetric. -/
def WireVarBind.Symmetric (vb : WireVarBind) : Prop := vb.name.Symmetric ∧ vb.value.Symmetric

/-- All search ranges and varbinds of a request are symmetric. -/
def XRequest.Symmetric (r : XRequest) : Prop :=
  (∀ sr ∈ r.body.ranges, sr.Symmetric) ∧ ∀ vb ∈ r.body.varBinds, vb.Symmetric

/-- The octets of numbers are told apart. -/
theorem leBytes_inj {v v' : UInt32} : leBytes v = leBytes v' ↔ v = v' := by
  refine ⟨fun h => ?_, fun h => h ▸ rfl⟩
  rw [← peekWord_leBytes v, h, peekWord_leBytes]

/-- The octets of 16-bit numbers are told apart. -/
theorem leBytes16_inj {v v' : UInt16} : leBytes16 v = leBytes16 v' ↔ v = v' := by
  refine ⟨fun h => ?_, fun h => h ▸ rfl⟩
  rw [← peekHalf_leBytes16 v, h, peekHalf_leBytes16]

/-- OIDs in memory are told apart. -/
theorem flatMap_leBytes_inj {oid oid' : Oid} (hlen : oid.length = oid'.length) :
    oid.flatMap leBytes = oid'.flatMap leBytes ↔ oid = oid' := by
  refine ⟨fun h => ?_, fun h => h ▸ rfl⟩
  have hread := fun o : Oid => peekOid_flatMap_leBytes o []
  simp only [append_nil] at hread
  rw [← hread oid, h, hlen, hread oid']

/-- Numbers that are swapped one by one. -/
theorem map_ord_eq_iff (ids : List UInt32) :
    ids.map (ord true) = ids.map (ord false) ↔ ∀ id ∈ ids, bswap32 id = id :=
  map_inj_left

theorem WireOid.oid_eq_iff (oid : WireOid) : oid.oid true = oid.oid false ↔ oid.Symmetric := by
  rw [WireOid.oid, WireOid.oid]
  split
  · next hnull =>
      simp only [isNullObjid, Bool.and_eq_true, decide_eq_true_eq] at hnull
      have hlen := oid.length_ids true
      rw [hnull.1, length_map] at hlen
      rw [WireOid.Symmetric, eq_nil_of_length_eq_zero hlen]
      simp
  · simp only [List.cons.injEq, true_and]
    exact map_ord_eq_iff oid.ids

/-- The length of an object identifier does not depend on the byte order. -/
theorem WireOid.oid_length (oid : WireOid) : (oid.oid true).length = (oid.oid false).length := by
  rw [WireOid.oid, WireOid.oid]
  split
  · rfl
  · simp

/-- Eight octets that are turned around. -/
theorem turned_long_iff (lo hi : UInt32) :
    turned true (leBytes lo ++ leBytes hi) = turned false (leBytes lo ++ leBytes hi) ↔
      bswap32 lo = hi := by
  change (leBytes lo ++ leBytes hi).reverse = leBytes lo ++ leBytes hi ↔ _
  rw [reverse_append, ← leBytes_bswap32, ← leBytes_bswap32]
  constructor
  · intro h
    exact leBytes_inj.mp (append_inj h rfl).2
  · rintro rfl
    rw [bswap32_bswap32]

/-- A value is accepted and decoded alike if and only if it is accepted in the order of the
host and symmetric. -/
theorem WireValue.decoded_eq_iff {value : WireValue} (hlen : (value.octets false).length < 2 ^ 16) :
    (value.Fits true ∧ value.decoded true = value.decoded false) ↔
      value.Fits false ∧ value.Symmetric := by
  cases value with
  | word v =>
    simp only [Fits, decoded, Symmetric, Prod.mk.injEq, true_and, wordOctets, leBytes_inj]
    exact Iff.rfl
  | long lo hi =>
    simp only [Fits, decoded, Symmetric, Prod.mk.injEq, true_and]
    exact turned_long_iff lo hi
  | string s =>
    have hn : s.length < 2 ^ 16 := by
      simp only [octets, stringOctets, length_append] at hlen
      omega
    rw [Fits, ord_true_le_iff hn, length_eq_zero_iff]
    constructor
    · rintro ⟨rfl, -⟩
      exact ⟨by rw [Fits]; decide, rfl⟩
    · rintro ⟨-, hnil⟩
      exact ⟨hnil, rfl⟩
  | objid oid =>
    simp only [Fits, decoded, Symmetric, Prod.mk.injEq, oid.oid_length, true_and,
      flatMap_leBytes_inj oid.oid_length, oid.oid_eq_iff]
  | none => simp [Fits, decoded, Symmetric]

/-- A varbind is accepted and decoded alike if and only if it is accepted in the order of the
host and symmetric. -/
theorem WireVarBind.varBind_eq_iff {vb : WireVarBind} (hlen : (vb.octets false).length < 2 ^ 16) :
    (vb.Fits true ∧ vb.varBind true = vb.varBind false) ↔ vb.Fits false ∧ vb.Symmetric := by
  have hlen' : (vb.value.octets false).length < 2 ^ 16 := by
    simp only [octets, length_append] at hlen
    omega
  have hvalue := WireValue.decoded_eq_iff hlen'
  simp only [Fits, Symmetric, varBind, XVarBind.mk.injEq, true_and, vb.name.oid_eq_iff]
  rw [Prod.ext_iff] at hvalue
  tauto

/-- A search range is decoded alike if and only if it is symmetric. -/
theorem WireRange.range_eq_iff (sr : WireRange) :
    sr.range true = sr.range false ↔ sr.Symmetric := by
  simp only [range, Symmetric, XSearchRange.mk.injEq, and_true, WireOid.oid_eq_iff]

/-- **Decoded alike.** A request is accepted in network byte order and decoded alike if and only
if it is accepted in the order of the host and symmetric. -/
theorem XRequest.datagram_eq_iff {r : XRequest} (hlen : (r.octets false).length ≤ transpBufSiz) :
    (r.Accepted true ∧ (r.datagram true).srInList = (r.datagram false).srInList ∧
        (r.datagram true).vbInList = (r.datagram false).vbInList) ↔
      r.Accepted false ∧ r.Symmetric := by
  have hvb := fun vb (hvb : vb ∈ r.body.varBinds) =>
    WireVarBind.varBind_eq_iff (varBind_length_lt (payload_length_lt hlen) hvb)
  simp only [datagram, map_inj_left, WireRange.range_eq_iff]
  constructor
  · rintro ⟨hacc, hranges, hvbs⟩
    have hboth := fun vb hmem => (hvb vb hmem).mp ⟨hacc.varBinds vb hmem, hvbs vb hmem⟩
    exact ⟨⟨hacc.context, hacc.ranges, fun vb hmem => (hboth vb hmem).1⟩, hranges,
      fun vb hmem => (hboth vb hmem).2⟩
  · rintro ⟨hacc, hranges, hvbs⟩
    have hboth := fun vb hmem => (hvb vb hmem).mpr ⟨hacc.varBinds vb hmem, hvbs vb hmem⟩
    exact ⟨⟨hacc.context, hacc.ranges, fun vb hmem => (hboth vb hmem).1⟩, hranges,
      fun vb hmem => (hboth vb hmem).2⟩

/-! ### Responses in both byte orders -/

/-- An object identifier with its numbers in the given order. -/
def objidIn (big : Bool) (oid : Oid) : List UInt8 :=
  [objidNSubid oid, objidPfx oid, 0, 0] ++ ((oid.drop 5).map (ord big)).flatMap leBytes

/-- A value with its numbers in the given order. -/
def xValueIn (big : Bool) (vb : XVarBind) : List UInt8 :=
  match valueLayout vb.valType with
  | .word => turned big (peekBytes vb.value 4)
  | .long => turned big (peekBytes vb.value 8)
  | .string =>
    wordOctets big vb.valLen ++ (peekBytes vb.value vb.valLen.toNat ++
      List.replicate (uintSizeof vb.valLen.toNat - vb.valLen.toNat) 0)
  | .objid =>
    objidIn big (peekOid vb.value (vb.valLen.toNat / 4)) ++
      List.replicate (if 20 < vb.valLen then vb.valLen.toNat % 4 else 0) 0
  | .none => []

/-- A varbind with its numbers in the given order. -/
def xVarBindIn (big : Bool) (vb : XVarBind) : List UInt8 :=
  halfOctets big vb.valType ++ ([0, 0] ++ (objidIn big vb.oid ++ xValueIn big vb))

/-- The ids and the payload length of the header in the given order. -/
def idsIn (big : Bool) (ph : XPduHdr) : List UInt8 :=
  wordOctets big ph.sessionId ++ (wordOctets big ph.transactionId ++
    (wordOctets big ph.packetId ++ wordOctets big ph.payloadLength))

/-- What stands behind the header in the given order. -/
def contentsIn (big : Bool) (xdg : AgentxDatagram) : List UInt8 :=
  wordOctets big 0 ++ (halfOctets big xdg.error ++ (halfOctets big xdg.index ++
    xdg.vbOutList.flatMap (xVarBindIn big)))

/-- The PDU is a Response that, read in the given order, carries the ids, the length, the error and
the varbinds of the datagram. -/
structure Carries (big : Bool) (xdg : AgentxDatagram) (pdu : List UInt8) : Prop where
  type : pdu.take 2 = [xdg.pduHdr.version, agentxPduResponse]
  ids : (pdu.drop 4).take 16 = idsIn big (responseHdr xdg)
  contents : pdu.drop 20 = contentsIn big xdg

/-- The value reads the same in both byte orders. -/
def XVarBind.SymmetricValue (vb : XVarBind) : Prop :=
  match valueLayout vb.valType with
  | .word => (peekBytes vb.value 4).reverse = peekBytes vb.value 4
  | .long => (peekBytes vb.value 8).reverse = peekBytes vb.value 8
  | .string => bswap32 vb.valLen = vb.valLen
  | .objid => ∀ id ∈ (peekOid vb.value (vb.valLen.toNat / 4)).drop 5, bswap32 id = id
  | .none => True

/-- Type, name and value of a varbind read the same in both byte orders. -/
structure XVarBind.Symmetric (vb : XVarBind) : Prop where
  type : bswap16 vb.valType = vb.valType
  name : ∀ id ∈ vb.oid.drop 5, bswap32 id = id
  value : vb.SymmetricValue

/-- All numbers of an answer read the same in both byte orders. -/
structure AgentxDatagram.Symmetric (xdg : AgentxDatagram) : Prop where
  sessionId : bswap32 xdg.pduHdr.sessionId = xdg.pduHdr.sessionId
  transactionId : bswap32 xdg.pduHdr.transactionId = xdg.pduHdr.transactionId
  packetId : bswap32 xdg.pduHdr.packetId = xdg.pduHdr.packetId
  payloadLength : bswap32 (responseHdr xdg).payloadLength = (responseHdr xdg).payloadLength
  error : bswap16 xdg.error = xdg.error
  index : bswap16 xdg.index = xdg.index
  varBinds : ∀ vb ∈ xdg.vbOutList, vb.Symmetric

/-- Lists that are put together of parts of the same lengths. -/
theorem append_eq_append_iff_of_length {α : Type} {as bs cs ds : List α}
    (h : as.length = cs.length) : as ++ bs = cs ++ ds ↔ as = cs ∧ bs = ds := by
  constructor
  · exact fun heq => append_inj heq h
  · rintro ⟨rfl, rfl⟩
    rfl

theorem wordOctets_eq_iff (v : UInt32) : wordOctets true v = wordOctets false v ↔ bswap32 v = v :=
  leBytes_inj

theorem halfOctets_eq_iff (v : UInt16) : halfOctets true v = halfOctets false v ↔ bswap16 v = v :=
  leBytes16_inj

theorem objidIn_length (big : Bool) (oid : Oid) :
    (objidIn big oid).length = 4 + 4 * (oid.drop 5).length := by
  rw [objidIn, length_append, flatMap_leBytes_length, length_map]
  rfl

theorem objidIn_eq_iff (oid : Oid) :
    objidIn true oid = objidIn false oid ↔ ∀ id ∈ oid.drop 5, bswap32 id = id := by
  rw [objidIn, objidIn, append_cancel_left_eq, flatMap_leBytes_inj (by simp), map_ord_eq_iff]

theorem xValueIn_eq_iff (vb : XVarBind) :
    xValueIn true vb = xValueIn false vb ↔ vb.SymmetricValue := by
  rw [xValueIn, xValueIn, XVarBind.SymmetricValue]
  cases valueLayout vb.valType with
  | word | long => exact Iff.rfl
  | string =>
    dsimp only
    rw [append_cancel_right_eq, wordOctets_eq_iff]
  | objid =>
    dsimp only
    rw [append_cancel_right_eq, objidIn_eq_iff]
  | none => simp

theorem xValueIn_length (big : Bool) (vb : XVarBind) :
    (xValueIn big vb).length = (xValueIn false vb).length := by
  rw [xValueIn, xValueIn]
  cases valueLayout vb.valType <;> simp [objidIn_length, peekBytes_length]

theorem xVarBindIn_eq_iff (vb : XVarBind) :
    xVarBindIn true vb = xVarBindIn false vb ↔ vb.Symmetric := by
  rw [xVarBindIn, xVarBindIn, append_eq_append_iff_of_length (by simp),
    append_cancel_left_eq, append_eq_append_iff_of_length (by simp [objidIn_length]),
    halfOctets_eq_iff, objidIn_eq_iff, xValueIn_eq_iff]
  exact ⟨fun h => ⟨h.1, h.2.1, h.2.2⟩, fun h => ⟨h.type, h.name, h.value⟩⟩

theorem xVarBindIn_length (big : Bool) (vb : XVarBind) :
    (xVarBindIn big vb).length = (xVarBindIn false vb).length := by
  simp [xVarBindIn, objidIn_length, xValueIn_length big]

/-- Varbinds that are turned around one by one. -/
theorem flatMap_xVarBindIn_eq_iff (vbs : List XVarBind) :
    vbs.flatMap (xVarBindIn true) = vbs.flatMap (xVarBindIn false) ↔ ∀ vb ∈ vbs, vb.Symmetric := by
  induction vbs with
  | nil => simp
  | cons vb vbs ih =>
    rw [flatMap_cons, flatMap_cons,
      append_eq_append_iff_of_length (xVarBindIn_length true vb), xVarBindIn_eq_iff, ih,
      forall_mem_cons]

/-- In the order of the host, an emitted varbind is as it stands. -/
theorem xVarBindIn_false (vb : XVarBind) : xVarBindIn false vb = xVarBindEnc vb := by
  have hoid : ∀ oid, objidIn false oid = objidEnc oid := fun oid => by
    rw [objidIn, objidEnc, show ord false = id from rfl, map_id]
  have hvalue : xValueIn false vb = xValueEnc vb := by
    rw [xValueIn, xValueEnc]
    cases valueLayout vb.valType with
    | word => rfl
    | long => rfl
    | string => exact (append_assoc ..).symm
    | objid => exact congrArg (· ++ _) (hoid _)
    | none => rfl
  rw [xVarBindIn, xVarBindEnc, hoid, hvalue, append_assoc, append_assoc]
  rfl

theorem agentxResponsePdu_ids (xdg : AgentxDatagram) :
    ((agentxResponsePdu xdg).buf.drop 4).take 16 = idsIn false (responseHdr xdg) := rfl

/-- What stands behind the header of a Response. -/
theorem agentxResponsePdu_contents (xdg : AgentxDatagram) :
    (agentxResponsePdu xdg).buf.drop 20 = contentsIn false xdg := by
  have hvbs : xdg.vbOutList.flatMap (xVarBindIn false) = xdg.vbOutList.flatMap xVarBindEnc :=
    flatMap_congr fun vb _ => xVarBindIn_false vb
  rw [contentsIn, hvbs]
  rfl

/-- A datagram under other flags. -/
def AgentxDatagram.withFlags (flags : UInt8) (xdg : AgentxDatagram) : AgentxDatagram :=
  { xdg with pduHdr := { xdg.pduHdr with flags := flags } }

/-- **Responses** carry their answer in the order of the host, whatever their flags announce. -/
theorem carries_false (xdg : AgentxDatagram) (flags : UInt8) :
    Carries false xdg (agentxResponsePdu (xdg.withFlags flags)).buf :=
  ⟨rfl, agentxResponsePdu_ids _, agentxResponsePdu_contents _⟩

/-- **Responses in network byte order** carry their answer if and only if it is symmetric. -/
theorem carries_iff_symmetric (xdg : AgentxDatagram) (flags : UInt8) :
    Carries true xdg (agentxResponsePdu (xdg.withFlags flags)).buf ↔ xdg.Symmetric := by
  have hids (ph : XPduHdr) : idsIn true ph = idsIn false ph ↔
      bswap32 ph.sessionId = ph.sessionId ∧ bswap32 ph.transactionId = ph.transactionId ∧
        bswap32 ph.packetId = ph.packetId ∧ bswap32 ph.payloadLength = ph.payloadLength := by
    rw [idsIn, idsIn, append_eq_append_iff_of_length (by rfl), append_eq_append_iff_of_length (by rfl),
      append_eq_append_iff_of_length (by rfl), wordOctets_eq_iff, wordOctets_eq_iff,
      wordOctets_eq_iff, wordOctets_eq_iff]
  have hcontents : contentsIn true xdg = contentsIn false xdg ↔
      bswap16 xdg.error = xdg.error ∧ bswap16 xdg.index = xdg.index ∧
        ∀ vb ∈ xdg.vbOutList, vb.Symmetric := by
    rw [contentsIn, contentsIn, show wordOctets true 0 = wordOctets false 0 by decide,
      append_cancel_left_eq, append_eq_append_iff_of_length (by rfl),
      append_eq_append_iff_of_length (by rfl), halfOctets_eq_iff, halfOctets_eq_iff,
      flatMap_xVarBindIn_eq_iff]
  have hfalse := carries_false xdg flags
  constructor
  · intro h
    obtain ⟨hsession, htransaction, hpacket, hlength⟩ :=
      (hids _).mp (h.ids.symm.trans hfalse.ids)
    obtain ⟨herror, hindex, hvbs⟩ := hcontents.mp (h.contents.symm.trans hfalse.contents)
    exact ⟨hsession, htransaction, hpacket, hlength, herror, hindex, hvbs⟩
  · intro h
    exact ⟨hfalse.type,
      hfalse.ids.trans
        ((hids (responseHdr xdg)).mpr
          ⟨h.sessionId, h.transactionId, h.packetId, h.payloadLength⟩).symm,
      hfalse.contents.trans (hcontents.mpr ⟨h.error, h.index, h.varBinds⟩).symm⟩

/-- A number of up to 16 bits other than zero does not read the same in both byte orders. -/
theorem bswap32_ne_self {v : UInt32} (hpos : v ≠ 0) (hshort : v.toNat < 2 ^ 16) : bswap32 v ≠ v := by
  intro h
  have hne : v.toNat ≠ 0 := fun hzero => hpos (UInt32.toNat_inj.mp hzero)
  have hnat := congrArg UInt32.toNat h
  simp only [bswap32, leBytes, reverse_cons, reverse_nil, nil_append,
    cons_append, peekWord_toNat, UInt32.toNat_toUInt8, UInt32.toNat_shiftRight,
    UInt32.reduceToNat, Nat.reduceMod, Nat.shiftRight_eq_div_pow,
    Nat.div_eq_of_lt (hshort.trans (by decide : 2 ^ 16 < 2 ^ 24)), Nat.div_eq_of_lt hshort] at hnat
  omega

/-! ### The dispatcher does not look at the flags -/

variable {σ : Type} (h : Handlers σ) (root : MibNode)

theorem reportXError_withFlags (errStat : Int32) (cnt : UInt32) (flags : UInt8)
    (xdg : AgentxDatagram) :
    reportXError errStat cnt (xdg.withFlags flags) = (reportXError errStat cnt xdg).withFlags flags := by
  rw [reportXError, reportXError]
  split
  · next hc => rw [if_pos (by exact hc)]; rfl
  · next hc => rw [if_neg (by exact hc)]

theorem map_bind {α β γ : Type} (x : AgentM σ α) (f : α → AgentM σ β) (g : β → γ) :
    g <$> (x >>= f) = x >>= fun a => g <$> f a :=
  bind_assoc x f _

theorem xReadLoop_withFlags (find : XSearchRange → OidSearchRes → AgentM σ OidSearchRes)
    (flags : UInt8) (srs : List XSearchRange) (cnt : UInt32) (xdg : AgentxDatagram)
    (ret : OidSearchRes) :
    xReadLoop find srs cnt (xdg.withFlags flags) ret =
      AgentxDatagram.withFlags flags <$> xReadLoop find srs cnt xdg ret := by
  induction srs generalizing cnt xdg ret with
  | nil => rfl
  | cons sr srs ih =>
    rw [xReadLoop, xReadLoop, map_bind]
    refine congrArg _ (funext fun ret' => ?_)
    dsimp only
    rw [reportXError_withFlags, ← ih]
    rfl

theorem agentxSetLoop_withFlags (flags : UInt8) (vbs : List XVarBind) (cnt : UInt32)
    (xdg : AgentxDatagram) (ret : OidSearchRes) :
    agentxSetLoop h root vbs cnt (xdg.withFlags flags) ret =
      AgentxDatagram.withFlags flags <$> agentxSetLoop h root vbs cnt xdg ret := by
  induction vbs generalizing cnt xdg ret with
  | nil => rfl
  | cons vb vbs ih =>
    rw [agentxSetLoop, agentxSetLoop, map_bind]
    refine congrArg _ (funext fun ret' => ?_)
    dsimp only
    rw [reportXError_withFlags, ← ih]
    rfl

/-- The answer to a datagram under other flags is the answer under other flags. -/
theorem agentxRequestDispatch_withFlags (flags : UInt8) (xdg : AgentxDatagram) :
    agentxRequestDispatch h root (xdg.withFlags flags) =
      Option.map (AgentxDatagram.withFlags flags) <$> agentxRequestDispatch h root xdg := by
  have hmap : ∀ x : AgentM σ AgentxDatagram,
      some <$> AgentxDatagram.withFlags flags <$> x =
        Option.map (AgentxDatagram.withFlags flags) <$> (some <$> x : AgentM σ _) := fun x => by
    rw [map_eq_bind _ x, map_eq_bind _ x, map_bind, map_bind]
    rfl
  have htype : (xdg.withFlags flags).pduHdr.type = xdg.pduHdr.type := rfl
  rw [agentxRequestDispatch, agentxRequestDispatch, htype]
  split
  · rw [← hmap]
    exact congrArg (some <$> ·) (xReadLoop_withFlags _ flags _ _ _ _)
  · split
    · rw [← hmap]
      exact congrArg (some <$> ·) (xReadLoop_withFlags _ flags _ _ _ _)
    · split
      · rw [← hmap]
        exact congrArg (some <$> ·) (agentxSetLoop_withFlags h root flags _ _ _ _)
      · split <;> rfl

/-! ### Transparency -/

/-- The datagram that is decoded from a request in a buffer. -/
def XRequest.received (big : Bool) (r : XRequest) (residue : List UInt8) : Option AgentxDatagram :=
  (agentxDecode ⟨r.octets big ++ residue, 0⟩).toOption.map Prod.fst

/-- The datagram from which the response to a request is made. -/
def XRequest.answer (mib : σ) (big : Bool) (r : XRequest) (residue : List UInt8) :
    Option AgentxDatagram :=
  (r.received big residue).bind fun xdg => (agentxRequestDispatch h root xdg ⟨mib, []⟩).1.join

/-- The same search ranges and varbinds are decoded in both byte orders. -/
def XRequest.DecodedAlike (r : XRequest) (residue : Bool → List UInt8) : Prop :=
  (r.received true (residue true)).map (fun xdg => (xdg.srInList, xdg.vbInList)) =
    (r.received false (residue false)).map fun xdg => (xdg.srInList, xdg.vbInList)

/-- The byte order makes no difference: the same search ranges and varbinds are decoded, and
the responses, each read in the order of its flags, carry the same. -/
structure XRequest.Transparent (mib : σ) (r : XRequest) (residue : Bool → List UInt8) : Prop where
  items : r.DecodedAlike residue
  response : Option.Rel
    (fun a b => Carries false a (agentxResponsePdu a).buf ∧ Carries true a (agentxResponsePdu b).buf)
    (r.answer h root mib false (residue false)) (r.answer h root mib true (residue true))

/-- The answer to a request as it is decoded in the order of the host. -/
def XRequest.hostAnswer (mib : σ) (r : XRequest) : Option AgentxDatagram :=
  (agentxRequestDispatch h root (r.datagram false) ⟨mib, []⟩).1.join

variable {r : XRequest}

theorem XRequest.Accepted.host (hlen : (r.octets false).length ≤ transpBufSiz)
    (h : r.Accepted true) : r.Accepted false := by
  refine ⟨h.context, h.ranges, fun vb hvb => ⟨(h.varBinds vb hvb).1, ?_⟩⟩
  have hvalue := (h.varBinds vb hvb).2
  have hshort := varBind_length_lt (payload_length_lt hlen) hvb
  cases hval : vb.value with
  | string s =>
    have hn : s.length < 2 ^ 16 := by
      simp only [WireVarBind.octets, hval, WireValue.octets, stringOctets, length_append]
        at hshort
      omega
    rw [hval, WireValue.Fits, ord_true_le_iff hn] at hvalue
    rw [WireValue.Fits, hvalue]
    decide
  | word v => trivial
  | long lo hi => trivial
  | objid oid =>
    rw [hval] at hvalue
    exact hvalue
  | none => trivial

theorem XRequest.datagram_true (hlen : (r.octets false).length ≤ transpBufSiz)
    (hacc : r.Accepted false) (hsym : r.Symmetric) :
    r.Accepted true ∧ r.datagram true = (r.datagram false).withFlags (r.flags true) := by
  obtain ⟨htrue, hranges, hvbs⟩ := (datagram_eq_iff hlen).mpr ⟨hacc, hsym⟩
  refine ⟨htrue, ?_⟩
  simp only [datagram] at hranges hvbs
  simp only [datagram, AgentxDatagram.withFlags, hranges, hvbs]
  rfl

/-- What is decoded. -/
theorem XRequest.received_of_accepted {big : Bool} (hlen : (r.octets big).length ≤ transpBufSiz)
    (h : r.Accepted big) (residue : List UInt8) :
    r.received big residue = some (r.datagram big) := by
  rw [received, agentxDecode_eq hlen h]
  rfl

theorem XRequest.received_of_refused {big : Bool} (hlen : (r.octets big).length ≤ transpBufSiz)
    (h : ¬r.Accepted big) (residue : List UInt8) : r.received big residue = none := by
  obtain ⟨e, he⟩ := agentxDecode_refused hlen h residue
  rw [received, he]
  rfl

/-- The answer to a symmetric request in network byte order. -/
theorem XRequest.answer_true (mib : σ) (hlen : (r.octets true).length ≤ transpBufSiz)
    (htrue : r.Accepted true) {flags : UInt8}
    (hdatagram : r.datagram true = (r.datagram false).withFlags flags) (residue : List UInt8) :
    r.answer h root mib true residue =
      (r.hostAnswer h root mib).map (AgentxDatagram.withFlags flags) := by
  rw [answer, received_of_accepted hlen htrue, Option.bind_some, hdatagram,
    agentxRequestDispatch_withFlags, hostAnswer, map_eq_bind]
  rcases hrun : agentxRequestDispatch h root (r.datagram false) ⟨mib, []⟩ with ⟨_ | a, w⟩
  · rw [bind_eq_of_none hrun]
    rfl
  · rw [bind_eq_of_some hrun]
    rfl

/-- Responses to one answer, under other flags in network byte order. -/
theorem rel_carries_iff (answer : Option AgentxDatagram) (flags : UInt8) :
    Option.Rel (fun a b => Carries false a (agentxResponsePdu a).buf ∧
        Carries true a (agentxResponsePdu b).buf)
      answer (answer.map (AgentxDatagram.withFlags flags)) ↔
      ∀ a, answer = some a → a.Symmetric := by
  cases answer with
  | none => exact ⟨fun _ a ha => absurd ha (by simp), fun _ => .none⟩
  | some a =>
    constructor
    · rintro (⟨-, hcarries⟩ | -) _ ⟨⟩
      exact (carries_iff_symmetric a flags).mp hcarries
    · intro hsym
      exact .some ⟨carries_false a a.pduHdr.flags,
        (carries_iff_symmetric a flags).mpr (hsym a rfl)⟩

theorem XRequest.decodedAlike_iff (hlen : (r.octets false).length ≤ transpBufSiz)
    (residue : Bool → List UInt8) : r.DecodedAlike residue ↔ ¬r.Accepted false ∨ r.Symmetric := by
  have hlen' : (r.octets true).length ≤ transpBufSiz := r.octets_length ▸ hlen
  rw [DecodedAlike]
  by_cases hacc : r.Accepted false
  · rw [received_of_accepted hlen hacc]
    constructor
    · intro hitems
      have htrue : r.Accepted true := by
        by_contra hrefused
        rw [received_of_refused hlen' hrefused] at hitems
        cases hitems
      rw [received_of_accepted hlen' htrue] at hitems
      obtain ⟨hranges, hvbs⟩ := Prod.mk.inj (Option.some.inj hitems)
      exact .inr ((datagram_eq_iff hlen).mp ⟨htrue, hranges, hvbs⟩).2
    · intro hsym
      obtain ⟨htrue, hranges, hvbs⟩ :=
        (datagram_eq_iff hlen).mpr ⟨hacc, hsym.resolve_left (not_not.mpr hacc)⟩
      rw [received_of_accepted hlen' htrue, Option.map_some, Option.map_some, hranges, hvbs]
  · have htrue : ¬r.Accepted true := fun htrue => hacc (htrue.host hlen)
    rw [received_of_refused hlen hacc, received_of_refused hlen' htrue]
    exact ⟨fun _ => .inl hacc, fun _ => rfl⟩

/-- **Byte order.** A request that fits into the receive buffer is decoded alike if and only if it
is refused in both byte orders or all its numbers read the same in both. It is treated alike if and
only if besides all numbers of its answer read the same in both, which the length of a response
below 65536 octets never does. -/
theorem byteOrder_transparent_iff (mib : σ) (r : XRequest) (residue : Bool → List UInt8)
    (hlen : (r.octets false).length ≤ transpBufSiz) :
    (r.DecodedAlike residue ↔ ¬r.Accepted false ∨ r.Symmetric) ∧
    (r.Transparent h root mib residue ↔
      ¬r.Accepted false ∨
        r.Symmetric ∧ ∀ a, r.hostAnswer h root mib = some a → a.Symmetric) ∧
    ∀ a, r.hostAnswer h root mib = some a → (responseHdr a).payloadLength ≠ 0 →
      (responseHdr a).payloadLength.toNat < 2 ^ 16 → ¬a.Symmetric := by
  have hdecoded := r.decodedAlike_iff hlen residue
  refine ⟨hdecoded, ?_, fun a _ hpos hshort hsym => bswap32_ne_self hpos hshort hsym.payloadLength⟩
  have hlen' : (r.octets true).length ≤ transpBufSiz := r.octets_length ▸ hlen
  by_cases hacc : r.Accepted false
  · have hanswer : r.answer h root mib false (residue false) = r.hostAnswer h root mib := by
      rw [XRequest.answer, XRequest.received_of_accepted hlen hacc]
      rfl
    have hresponse (hsym : r.Symmetric) :
        r.answer h root mib true (residue true) =
          (r.hostAnswer h root mib).map (AgentxDatagram.withFlags (r.flags true)) := by
      obtain ⟨htrue, hdatagram⟩ := XRequest.datagram_true hlen hacc hsym
      exact XRequest.answer_true h root mib hlen' htrue hdatagram _
    constructor
    · rintro ⟨hitems, hcarries⟩
      have hsym := (hdecoded.mp hitems).resolve_left (not_not.mpr hacc)
      rw [hanswer, hresponse hsym, rel_carries_iff] at hcarries
      exact .inr ⟨hsym, hcarries⟩
    · intro hcond
      obtain ⟨hsym, hsymAnswer⟩ := hcond.resolve_left (not_not.mpr hacc)
      refine ⟨hdecoded.mpr (.inr hsym), ?_⟩
      rw [hanswer, hresponse hsym, rel_carries_iff]
      exact hsymAnswer
  · have htrue : ¬r.Accepted true := fun htrue => hacc (htrue.host hlen)
    refine ⟨fun _ => .inl hacc, fun _ => ⟨hdecoded.mpr (.inl hacc), ?_⟩⟩
    rw [XRequest.answer, XRequest.answer, XRequest.received_of_refused hlen hacc,
      XRequest.received_of_refused hlen' htrue]
    exact .none

/-- A Get of the given search ranges. -/
def sampleGet (packetId : UInt32) (ranges : List WireRange) : XRequest where
  sessionId := 0
  transactionId := 0
  packetId := packetId
  body := .get ranges

/-- A Get of `1.3.6.1.2.16777217`, whose numbers all read the same in both byte orders. -/
def symmetricGet : XRequest :=
  sampleGet 0 [{ start := { pfx := 2, ids := [0x01000001] }, startInclude := 1 }]

/-- A TestSet with a string of 1025 octets. -/
def longTestSet : XRequest where
  sessionId := 0
  transactionId := 0
  packetId := 7
  body := .testSet [{
    tag := asn1TagOctstr, name := { pfx := 2, ids := [1, 1, 1, 0] }
    value := .string (List.replicate 1025 65), fits := by decide }]

/-- A Get of symmetric numbers is decoded alike, but its response of 20 octets cannot be read in
network byte order; a TestSet with a value that is too long is refused in both orders. -/
theorem symmetricGet_decoded_alike :
    (symmetricGet.DecodedAlike (fun _ => []) ∧
      ¬symmetricGet.Transparent variableHandlers oneGroup 0 (fun _ => [])) ∧
    longTestSet.Transparent variableHandlers oneGroup 0 fun _ => [] := by
  obtain ⟨hdecoded, htransparent, hshort⟩ :=
    byteOrder_transparent_iff variableHandlers oneGroup 0 symmetricGet (fun _ => []) (by decide)
  have hlong := byteOrder_transparent_iff variableHandlers oneGroup 0 longTestSet (fun _ => [])
    (by decide +kernel)
  have haccepted : symmetricGet.Accepted false := by
    refine ⟨fun ctx hctx => absurd hctx (by simp [symmetricGet, sampleGet]), fun sr hsr => ?_,
      fun vb hvb => absurd hvb not_mem_nil⟩
    obtain rfl := mem_singleton.mp hsr
    exact ⟨Nat.le_of_ble_eq_true rfl, Nat.le_of_ble_eq_true rfl⟩
  refine ⟨⟨hdecoded.mpr (.inr ⟨fun sr hsr => ?_, fun vb hvb => absurd hvb not_mem_nil⟩),
    fun h => ?_⟩, hlong.2.1.mpr (.inl fun hacc => ?_)⟩
  · obtain rfl := mem_singleton.mp hsr
    exact ⟨forall_mem_singleton.mpr rfl, by simp [WireOid.Symmetric]⟩
  · obtain ⟨-, hanswer⟩ := (htransparent.mp h).resolve_left (not_not.mpr haccepted)
    exact hshort _ rfl (by decide) (by decide) (hanswer _ rfl)
  · have hfits := (hacc.varBinds _ (mem_singleton.mpr rfl)).2
    simp only [WireValue.Fits] at hfits
    exact absurd hfits (by decide +kernel)

/-- A Get of `1.3.6.1.2.1.1.1.0`. -/
def sysDescrGet : XRequest :=
  sampleGet 7 [{ start := { pfx := 2, ids := [1, 1, 1, 0] }, startInclude := 1 }]

/-- **A Get in network byte order** is decoded to another search range, and its packet id is
sent back in little-endian order under flags that announce network byte order. -/
theorem sysDescrGet_turned :
    ¬sysDescrGet.Transparent variableHandlers oneGroup 0 (fun _ => []) ∧
    [false, true].map (fun big =>
      ((sysDescrGet.received big []).map fun xdg => xdg.srInList.map (·.start),
        (sysDescrGet.answer variableHandlers oneGroup 0 big []).map fun a =>
          ((agentxResponsePdu a).buf.drop 2).take 14)) =
      [(some [[1, 3, 6, 1, 2, 1, 1, 1, 0]],
          some [0, 0, 0, 0, 0, 0, 0, 0, 0, 0, 7, 0, 0, 0]),
        (some [[1, 3, 6, 1, 2, 0x01000000, 0x01000000, 0x01000000, 0]],
          some [0x10, 0, 0, 0, 0, 0, 0, 0, 0, 0, 7, 0, 0, 0])] :=
  ⟨fun h => absurd h.items (by rw [XRequest.DecodedAlike]; decide +kernel), by decide +kernel⟩

end SmithSnmp
