import SmithSnmp.AgentxRoundTrip
import SmithSnmp.Transport

/-!
# AgentX Requests in Both Byte Orders

Get, GetNext, GetBulk and TestSet as a master sends them, in network byte order with the flag
`NETWORD_BYTE_ORDER` or in little-endian order without it, and what `agentx_decode` makes of
the octets. The header, the context and the types are brought into the order of the host. The
sub-identifiers and the values are taken as they stand, and so is the length of a string: in
network byte order a string that is not empty is refused as too long.

## Main results

* `XRequest.agentxDecode_eq`: an accepted request is decoded to `XRequest.datagram`.
* `XRequest.agentxDecode_refused`: any other request is refused.
-/

namespace SmithSnmp

open List Lib Reader

/-! ### Byte orders -/

/-- A number as it is read from four octets in network byte order (`big`) or in that of the
host. -/
def ord (big : Bool) (v : UInt32) : UInt32 := if big then bswap32 v else v

/-- A 16-bit number as it is read from two octets. -/
def ord16 (big : Bool) (v : UInt16) : UInt16 := if big then bswap16 v else v

/-- The four octets of a number. -/
def wordOctets (big : Bool) (v : UInt32) : List UInt8 := leBytes (ord big v)

/-- The two octets of a number. -/
def halfOctets (big : Bool) (v : UInt16) : List UInt8 := leBytes16 (ord16 big v)

/-- Octets of a number that are turned around in network byte order. -/
def turned (big : Bool) (bs : List UInt8) : List UInt8 := if big then bs.reverse else bs

/-- The flags of a byte order. -/
def orderFlags (big : Bool) : UInt8 := if big then networdByteOrder else 0

/-! ### Requests -/

/-- An object identifier in a PDU: `1.3.6.1`, a prefix and at most 255 sub-identifiers. -/
structure WireOid where
  pfx : UInt8 := 0
  ids : List UInt32 := []
  short : ids.length < 256 := by decide

/-- A search range. -/
structure WireRange where
  start : WireOid
  startInclude : UInt8
  stop : WireOid := {}
  endInclude : UInt8 := 0

/-- A value, by its layout. -/
inductive WireValue where
  | word (v : UInt32)
  | long (lo hi : UInt32)
  | string (s : List UInt8)
  | objid (oid : WireOid)
  | none

/-- The layout of a value. -/
def WireValue.layout : WireValue → ValueLayout
  | .word _ => .word
  | .long _ _ => .long
  | .string _ => .string
  | .objid _ => .objid
  | .none => .none

/-- A varbind whose value has the layout of its tag. -/
structure WireVarBind where
  tag : UInt8
  name : WireOid
  value : WireValue
  fits : value.layout = valueLayout tag.toUInt16

/-- What the requests are about. -/
inductive RequestBody where
  | get (ranges : List WireRange)
  | getNext (ranges : List WireRange)
  | getBulk (nonRep maxRep : UInt16) (ranges : List WireRange)
  | testSet (varBinds : List WireVarBind)

/-- A request. -/
structure XRequest where
  version : UInt8 := 1
  sessionId : UInt32
  transactionId : UInt32
  packetId : UInt32
  /-- context, if it is not the default one -/
  context : Option (List UInt8) := none
  /-- PDU type and contents -/
  body : RequestBody

/-! ### Octets -/

/-- The number of sub-identifiers. -/
def WireOid.nSubid (oid : WireOid) : UInt8 := UInt8.ofNat oid.ids.length

/-- An object identifier with its `include` octet. -/
def WireOid.octets (big : Bool) (incl : UInt8) (oid : WireOid) : List UInt8 :=
  [oid.nSubid, oid.pfx] ++ ([incl, 0] ++ (oid.ids.map (ord big)).flatMap leBytes)

/-- The octets of a search range. -/
def WireRange.octets (big : Bool) (sr : WireRange) : List UInt8 :=
  sr.start.octets big sr.startInclude ++ sr.stop.octets big sr.endInclude

/-- A string with its length, padded to a multiple of four octets. -/
def stringOctets (big : Bool) (s : List UInt8) : List UInt8 :=
  wordOctets big (UInt32.ofNat s.length) ++
    (s ++ List.replicate (uintSizeof s.length - s.length) 0)

/-- The octets of a value. -/
def WireValue.octets (big : Bool) : WireValue → List UInt8
  | .word v => wordOctets big v
  | .long lo hi => turned big (leBytes lo ++ leBytes hi)
  | .string s => stringOctets big s
  | .objid oid => oid.octets big 0
  | .none => []

/-- The octets of a varbind. -/
def WireVarBind.octets (big : Bool) (vb : WireVarBind) : List UInt8 :=
  halfOctets big vb.tag.toUInt16 ++ ([0, 0] ++ (vb.name.octets big 0 ++ vb.value.octets big))

/-- The PDU type of a request. -/
def RequestBody.type : RequestBody → UInt8
  | .get _ => agentxPduGet
  | .getNext _ => agentxPduGetnext
  | .getBulk _ _ _ => agentxPduGetbulk
  | .testSet _ => agentxPduTestset

/-- The search ranges of a request. -/
def RequestBody.ranges : RequestBody → List WireRange
  | .get srs => srs
  | .getNext srs => srs
  | .getBulk _ _ srs => srs
  | .testSet _ => []

/-- The varbinds of a request. -/
def RequestBody.varBinds : RequestBody → List WireVarBind
  | .testSet vbs => vbs
  | _ => []

/-- The number of non-repeaters of a GetBulk. -/
def RequestBody.nonRep : RequestBody → UInt16
  | .getBulk nonRep _ _ => nonRep
  | _ => 0

/-- The number of repetitions of a GetBulk. -/
def RequestBody.maxRep : RequestBody → UInt16
  | .getBulk _ maxRep _ => maxRep
  | _ => 0

/-- The additional data of a GetBulk. -/
def RequestBody.additional (big : Bool) : RequestBody → List UInt8
  | .getBulk nonRep maxRep _ => halfOctets big nonRep ++ halfOctets big maxRep
  | _ => []

/-- The search ranges or varbinds of a request. -/
def RequestBody.items (big : Bool) (body : RequestBody) : List UInt8 :=
  body.ranges.flatMap (WireRange.octets big) ++ body.varBinds.flatMap (WireVarBind.octets big)

namespace XRequest

/-- The octets of the context. -/
def contextOctets (big : Bool) (r : XRequest) : List UInt8 :=
  match r.context with
  | none => []
  | some ctx => stringOctets big ctx

/-- The flags of a request. -/
def flags (big : Bool) (r : XRequest) : UInt8 :=
  (if r.context.isSome then nonDefaultContext else 0) ||| orderFlags big

/-- What stands behind the header. -/
def payload (big : Bool) (r : XRequest) : List UInt8 :=
  r.contextOctets big ++ (r.body.additional big ++ r.body.items big)

/-- The header of a request. -/
def hdr (big : Bool) (r : XRequest) : XPduHdr where
  version := r.version
  type := r.body.type
  flags := r.flags big
  sessionId := r.sessionId
  transactionId := r.transactionId
  packetId := r.packetId
  payloadLength := UInt32.ofNat (r.payload big).length

/-- The octets of the header. -/
def hdrOctets (big : Bool) (ph : XPduHdr) : List UInt8 :=
  [ph.version] ++ ([ph.type] ++ ([ph.flags] ++ ([ph.reserved] ++ (wordOctets big ph.sessionId ++
    (wordOctets big ph.transactionId ++ (wordOctets big ph.packetId ++
      wordOctets big ph.payloadLength))))))

/-- **The request on the wire**, in either byte order. -/
def octets (big : Bool) (r : XRequest) : List UInt8 := hdrOctets big (r.hdr big) ++ r.payload big

end XRequest

/-! ### Lengths -/

@[simp] theorem wordOctets_length (big : Bool) (v : UInt32) : (wordOctets big v).length = 4 := rfl

@[simp] theorem halfOctets_length (big : Bool) (v : UInt16) : (halfOctets big v).length = 2 := rfl

@[simp] theorem turned_length (big : Bool) (bs : List UInt8) :
    (turned big bs).length = bs.length := by
  cases big <;> simp [turned]

theorem stringOctets_length (big : Bool) (s : List UInt8) :
    (stringOctets big s).length = 4 + uintSizeof s.length := by
  have h : s.length ≤ uintSizeof s.length := by
    rw [uintSizeof]
    omega
  simp only [stringOctets, length_append, wordOctets_length, length_replicate]
  omega

theorem WireOid.octets_length (big : Bool) (incl : UInt8) (oid : WireOid) :
    (oid.octets big incl).length = 4 + 4 * oid.ids.length := by
  simp only [octets, length_append, length_cons, length_nil,
    flatMap_leBytes_length, length_map]
  omega

theorem WireVarBind.octets_length (big : Bool) (vb : WireVarBind) :
    (vb.octets big).length = (vb.octets false).length := by
  have hvalue : (vb.value.octets big).length = (vb.value.octets false).length := by
    cases vb.value with
    | word v => rfl
    | long lo hi => exact (turned_length _ _).trans (turned_length _ _).symm
    | string s => exact (stringOctets_length _ _).trans (stringOctets_length _ _).symm
    | objid oid => exact (oid.octets_length _ _).trans (oid.octets_length _ _).symm
    | none => rfl
  simp only [octets, length_append, halfOctets_length, WireOid.octets_length, hvalue]

/-- The octets of a request are as many in both orders. -/
theorem XRequest.octets_length (r : XRequest) :
    (r.octets true).length = (r.octets false).length := by
  have hcontext : (r.contextOctets true).length = (r.contextOctets false).length := by
    rw [contextOctets, contextOctets]
    cases r.context with
    | none => rfl
    | some ctx => exact (stringOctets_length _ _).trans (stringOctets_length _ _).symm
  have hadditional : (r.body.additional true).length = (r.body.additional false).length := by
    cases r.body <;> rfl
  have hitems : (r.body.items true).length = (r.body.items false).length := by
    simp only [RequestBody.items, length_append, length_flatMap, WireRange.octets,
      WireOid.octets_length, WireVarBind.octets_length true]
  simp only [octets, hdrOctets, payload, length_append, length_singleton,
    wordOctets_length, hcontext, hadditional, hitems]

/-! ### What is decoded -/

/-- The object identifier that is decoded. -/
def WireOid.oid (big : Bool) (oid : WireOid) : Oid :=
  if isNullObjid oid.nSubid oid.pfx then []
  else 1 :: 3 :: 6 :: 1 :: oid.pfx.toUInt32 :: oid.ids.map (ord big)

/-- The search range that is decoded. -/
def WireRange.range (big : Bool) (sr : WireRange) : XSearchRange where
  start := sr.start.oid big
  stop := sr.stop.oid big
  startInclude := sr.startInclude
  endInclude := sr.endInclude

/-- The number of elements and the bytes of the value that is decoded. -/
def WireValue.decoded (big : Bool) : WireValue → UInt32 × List UInt8
  | .word v => (1, wordOctets big v)
  | .long lo hi => (1, turned big (leBytes lo ++ leBytes hi))
  | .string s => (UInt32.ofNat s.length, s)
  | .objid oid => (UInt32.ofNat (oid.oid big).length, (oid.oid big).flatMap leBytes)
  | .none => (0, [])

/-- The varbind that is decoded. -/
def WireVarBind.varBind (big : Bool) (vb : WireVarBind) : XVarBind where
  oid := vb.name.oid big
  valType := vb.tag.toUInt16
  valLen := (vb.value.decoded big).1
  value := (vb.value.decoded big).2

/-- The datagram of an accepted request. -/
def XRequest.datagram (big : Bool) (r : XRequest) : AgentxDatagram where
  context := r.context.getD []
  pduHdr := { r.hdr big with payloadLength := 0 }
  nonRep := r.body.nonRep
  maxRep := r.body.maxRep
  srInList := r.body.ranges.map (WireRange.range big)
  vbInList := r.body.varBinds.map (WireVarBind.varBind big)

/-! ### What is accepted -/

/-- The object identifier is not too long. -/
def WireOid.Fits (limit : ℕ) (oid : WireOid) : Prop := objidDecTry oid.nSubid oid.pfx ≤ limit

/-- The ends of a range are not too long. -/
def WireRange.Fits (sr : WireRange) : Prop :=
  sr.start.Fits (4 * asn1OidMaxLen) ∧ sr.stop.Fits (4 * asn1OidMaxLen)

/-- The value is not too long, its length being read as it stands. -/
def WireValue.Fits (big : Bool) : WireValue → Prop
  | .string s => (ord big (UInt32.ofNat s.length)).toNat ≤ asn1ValueMaxLen
  | .objid oid => oid.Fits asn1ValueMaxLen
  | _ => True

/-- Name and value of a varbind are not too long. -/
def WireVarBind.Fits (big : Bool) (vb : WireVarBind) : Prop :=
  vb.name.Fits (4 * asn1OidMaxLen) ∧ vb.value.Fits big

/-- The request is accepted: nothing in it is too long. -/
structure XRequest.Accepted (big : Bool) (r : XRequest) : Prop where
  context : ∀ ctx, r.context = some ctx → ctx.length ≤ 40
  ranges : ∀ sr ∈ r.body.ranges, sr.Fits
  varBinds : ∀ vb ∈ r.body.varBinds, vb.Fits big

/-! ### Decoding numbers -/

/-- The flags tell the byte order. -/
def Announces (flags : UInt8) (big : Bool) : Prop := (flags &&& networdByteOrder ≠ 0) ↔ big = true

/-- A number is brought into the order of the host. -/
theorem Announces.axtoh32 {flags : UInt8} {big : Bool} (h : Announces flags big) (v : UInt32) :
    axtoh32 (ord big v) flags = v := by
  cases big with
  | false => exact if_neg (mt h.mp Bool.false_ne_true)
  | true => rw [SmithSnmp.axtoh32, if_pos (h.mpr rfl), ord, if_pos rfl, bswap32_bswap32]

/-- A 16-bit number is brought into the order of the host. -/
theorem Announces.axtoh16 {flags : UInt8} {big : Bool} (h : Announces flags big) (v : UInt16) :
    axtoh16 (ord16 big v) flags = v := by
  cases big with
  | false => exact if_neg (mt h.mp Bool.false_ne_true)
  | true => rw [SmithSnmp.axtoh16, if_pos (h.mpr rfl), ord16, if_pos rfl, bswap16_bswap16]

/-- The flags of a request tell its byte order. -/
theorem XRequest.announces (big : Bool) (r : XRequest) : Announces (r.flags big) big := by
  rw [Announces, flags]
  cases r.context.isSome <;> cases big <;> decide

/-- The flags of a request tell whether there is a context. -/
theorem XRequest.flags_context (big : Bool) (r : XRequest) :
    (r.flags big &&& nonDefaultContext ≠ 0) ↔ r.context.isSome = true := by
  rw [flags]
  cases r.context.isSome <;> cases big <;> decide

/-! ### Decoding object identifiers -/

/-- The number of sub-identifiers. -/
theorem WireOid.length_ids (big : Bool) (oid : WireOid) :
    (oid.ids.map (ord big)).length = oid.nSubid.toNat := by
  rw [length_map, nSubid]
  exact (UInt8.toNat_ofNat_of_lt' oid.short).symm

/-- The sub-identifiers are taken as they stand. -/
theorem WireOid.tail_parses (big : Bool) (oid : WireOid) :
    Parses (objidTail (oid.nSubid, oid.pfx)) ((oid.ids.map (ord big)).flatMap leBytes)
      ((oid.ids.map (ord big)).flatMap leBytes) (oid.oid big) :=
  objidTail_parses oid.pfx (oid.length_ids big)

theorem WireOid.rangeEnd_judges (big : Bool) (incl : UInt8) (oid : WireOid) :
    Judges rangeEnd (oid.Fits (4 * asn1OidMaxLen)) (oid.octets big incl) (oid.oid big, incl) := by
  refine (objidHead_judges ..).bind_parses ?_
  change Parses _ ([incl] ++ ([0] ++ _)) ([incl] ++ ([0] ++ _)) _
  refine (Parses.octet incl).bind ((Parses.skip [0] rfl).bind ?_)
  exact (oid.tail_parses big).bind_pure

theorem WireRange.judges (big : Bool) (sr : WireRange) :
    Judges searchRangeAlloc sr.Fits (sr.octets big) (sr.range big) :=
  (sr.start.rangeEnd_judges big sr.startInclude).bind
    (sr.stop.rangeEnd_judges big sr.endInclude).bind_pure

/-! ### Decoding values -/

/-- A length in network byte order that is read as it stands is too long unless it is zero. -/
theorem ord_true_le_iff {n : ℕ} (hn : n < 2 ^ 16) :
    (ord true (UInt32.ofNat n)).toNat ≤ asn1ValueMaxLen ↔ n = 0 := by
  constructor
  · intro h
    have hv : (UInt32.ofNat n).toNat = n := UInt32.toNat_ofNat_of_lt' (by rw [UInt32.size]; omega)
    simp only [ord, if_true, bswap32, leBytes, reverse_cons, reverse_nil,
      nil_append, cons_append, peekWord_toNat, UInt32.toNat_toUInt8,
      UInt32.toNat_shiftRight, UInt32.reduceToNat, Nat.reduceMod, Nat.shiftRight_eq_div_pow, hv,
      asn1ValueMaxLen] at h
    omega
  · rintro rfl
    decide

/-- A length that is accepted is read as what it is. -/
theorem ord_length {big : Bool} {n : ℕ} (hn : n < 2 ^ 16)
    (h : (ord big (UInt32.ofNat n)).toNat ≤ asn1ValueMaxLen) :
    ord big (UInt32.ofNat n) = UInt32.ofNat n := by
  cases big with
  | false => rfl
  | true =>
    rw [(ord_true_le_iff hn).mp h]
    decide

/-- A value is read if it fits. -/
theorem WireValue.judges {big : Bool} {value : WireValue} {tag : UInt8}
    (hlayout : value.layout = valueLayout tag.toUInt16)
    (hlen : (value.octets big).length < 2 ^ 16) :
    Judges (agentxValueDec tag) (value.Fits big) (value.octets big) (value.decoded big) := by
  rw [agentxValueDec, ← hlayout]
  cases value with
  | word v => exact (Parses.octets (wordOctets_length big v)).bind_pure.judges
  | long lo hi => exact (Parses.octets (turned_length big _)).bind_pure.judges
  | string s =>
    simp only [WireValue.octets, stringOctets, length_append, wordOctets_length] at hlen
    have hn : (UInt32.ofNat s.length).toNat = s.length :=
      UInt32.toNat_ofNat_of_lt' (by rw [UInt32.size]; omega)
    refine (readWord_parses _).bind_judges (Judges.check _ not_lt.symm fun hle => ?_)
    rw [ord_length (by omega) hle, hn]
    exact (Parses.octets rfl).bind (Parses.skip _ (length_replicate ..)).bind_pure
  | objid oid =>
    refine (objidHead_judges ..).bind_parses ((Parses.skip [0, 0] rfl).bind ?_)
    exact (oid.tail_parses big).bind_pure
  | none => exact (Parses.pure _).judges

/-- The low byte of the type of a varbind. -/
theorem toUInt8_toUInt16 (tag : UInt8) : tag.toUInt16.toUInt8 = tag := by
  rw [← UInt8.toNat_inj]
  simp

theorem WireVarBind.judges {flags : UInt8} {big : Bool} (hflags : Announces flags big)
    {vb : WireVarBind} (hlen : (vb.octets big).length < 2 ^ 16) :
    Judges (xVarBindAlloc flags) (vb.Fits big) (vb.octets big) (vb.varBind big) := by
  have hlen' : (vb.value.octets big).length < 2 ^ 16 := by
    simp only [octets, length_append] at hlen
    omega
  have hvalue := WireValue.judges vb.fits hlen'
  refine (readHalf_parses _).bind_judges ((Parses.skip [0, 0] rfl).bind_judges ?_)
  rw [hflags.axtoh16, toUInt8_toUInt16, WireOid.octets, append_assoc, append_assoc]
  refine (objidHead_judges ..).bind ((Parses.skip [0, 0] rfl).bind_judges ?_)
  exact (vb.name.tail_parses big).bind_judges hvalue.bind_pure

/-! ### Decoding the PDU -/

namespace XRequest

theorem readPduHdr_parses {big : Bool} {ph : XPduHdr} (hflags : Announces ph.flags big) :
    Parses readPduHdr (hdrOctets big ph) (hdrOctets big ph) ph := by
  refine (Parses.octet _).bind ((Parses.octet _).bind ((Parses.octet _).bind
    ((Parses.octet _).bind ?_)))
  refine (readWord_parses _).bind ((readWord_parses _).bind ((readWord_parses _).bind ?_))
  have h := (readWord_parses (ord big ph.payloadLength)).bind_pure (f := fun payloadLength =>
    ({ ph with payloadLength := axtoh32 payloadLength ph.flags } : XPduHdr))
  simp only [hflags.axtoh32] at h ⊢
  exact h

/-- What is left of a payload. -/
theorem ofNat_add_sub (n m : ℕ) : UInt32.ofNat (n + m) - UInt32.ofNat n = UInt32.ofNat m := by
  rw [UInt32.ofNat_add, UInt32.add_comm]
  exact UInt32.add_sub_cancel _ _

variable {big : Bool} {r : XRequest}

/-- The header tells the byte order of the request. -/
theorem hdr_announces (big : Bool) (r : XRequest) : Announces (r.hdr big).flags big :=
  r.announces big

/-- The header tells whether there is a context. -/
theorem hdr_flags_context (big : Bool) (r : XRequest) :
    ((r.hdr big).flags &&& nonDefaultContext ≠ 0) ↔ r.context.isSome = true :=
  r.flags_context big

theorem payload_length_lt (hlen : (r.octets big).length ≤ transpBufSiz) :
    (r.payload big).length < 2 ^ 16 := by
  simp only [octets, hdrOctets, length_append, wordOctets_length, length_singleton,
    transpBufSiz] at hlen
  omega

/-- The datagram behind the context. -/
def afterContext (big : Bool) (r : XRequest) : AgentxDatagram where
  context := r.context.getD []
  pduHdr := { r.hdr big with
    payloadLength := UInt32.ofNat (r.body.additional big ++ r.body.items big).length }

/-- The datagram behind the additional data. -/
def afterAdditional (big : Bool) (r : XRequest) : AgentxDatagram where
  context := r.context.getD []
  pduHdr := { r.hdr big with payloadLength := UInt32.ofNat (r.body.items big).length }
  nonRep := r.body.nonRep
  maxRep := r.body.maxRep

/-- The check of the length of a context that fits into the buffer. -/
theorem ctxLen_check {n : ℕ} (hn : n < 2 ^ 16) :
    (41 < UInt32.ofNat n + 1 ↔ ¬n ≤ 40) ∧ (UInt32.ofNat n).toNat = n := by
  have hv : (UInt32.ofNat n).toNat = n := UInt32.toNat_ofNat_of_lt' (by rw [UInt32.size]; omega)
  refine ⟨?_, hv⟩
  rw [UInt32.lt_iff_toNat_lt, UInt32.toNat_add, hv]
  simp only [UInt32.reduceToNat]
  omega

theorem context_length_lt (hlen : (r.payload big).length < 2 ^ 16) {ctx : List UInt8}
    (hctx : r.context = some ctx) : ctx.length < 2 ^ 16 := by
  have hle : ctx.length ≤ uintSizeof ctx.length := by
    rw [uintSizeof]
    omega
  rw [payload, contextOctets, hctx, length_append, stringOctets_length] at hlen
  omega

/-- A context is read if it is not too long. -/
theorem contextParse_judges (hlen : (r.payload big).length < 2 ^ 16) :
    Judges (contextParse { pduHdr := r.hdr big }) (∀ ctx, r.context = some ctx → ctx.length ≤ 40)
      (r.contextOctets big) (r.afterContext big) := by
  have hflag := r.hdr_flags_context big
  rw [contextParse, contextOctets]
  cases hctx : r.context with
  | none =>
    rw [hctx] at hflag
    dsimp only
    rw [if_neg (mt hflag.mp (by decide))]
    have hsame : r.afterContext big = { pduHdr := r.hdr big } := by
      rw [afterContext, hdr, payload, contextOctets, hctx]
      rfl
    rw [hsame]
    exact (Parses.pure _).judges.congr (by simp)
  | some ctx =>
    rw [hctx] at hflag
    dsimp only
    rw [if_pos (hflag.mpr rfl)]
    have hpayload : (r.payload big).length =
        4 + uintSizeof ctx.length + (r.body.additional big ++ r.body.items big).length := by
      rw [payload, contextOctets, hctx, length_append, stringOctets_length]
    have hok : ctx.length ≤ 40 ↔ ∀ ctx', some ctx = some ctx' → ctx'.length ≤ 40 := by simp
    obtain ⟨hcheck, hn⟩ := ctxLen_check (context_length_lt hlen hctx)
    refine ((readWord_parses _).bind_judges ?_).congr hok
    rw [(r.hdr_announces big).axtoh32]
    refine Judges.check _ (by rw [hcheck, not_not]) fun _ => ?_
    have hafter : r.afterContext big = AgentxDatagram.consume
        { context := ctx, pduHdr := r.hdr big } (4 + uintSizeof ctx.length) := by
      simp only [afterContext, hctx, AgentxDatagram.consume, hdr, hpayload, ofNat_add_sub]
      rfl
    rw [hafter, hn]
    exact (Parses.octets rfl).bind (Parses.skip _ (length_replicate ..)).bind_pure

/-- The additional data is read. -/
theorem additionalParse_parses (big : Bool) (r : XRequest) :
    Parses (additionalParse (r.afterContext big)) (r.body.additional big) (r.body.additional big)
      (r.afterAdditional big) := by
  have htype : (r.afterContext big).pduHdr.type = r.body.type := rfl
  have hplain (hadd : r.body.additional big = []) (hnon : r.body.nonRep = 0)
      (hmax : r.body.maxRep = 0) : r.afterAdditional big = r.afterContext big := by
    rw [afterAdditional, afterContext, hadd, hnon, hmax]
    rfl
  rw [additionalParse, htype]
  cases hbody : r.body with
  | getBulk nonRep maxRep srs =>
    rw [RequestBody.type, if_neg (by decide), if_pos rfl]
    refine (readHalf_parses _).bind ?_
    have hafter : r.afterAdditional big = AgentxDatagram.consume
        { r.afterContext big with nonRep := nonRep, maxRep := maxRep } 4 := by
      simp only [afterAdditional, afterContext, AgentxDatagram.consume, hbody,
        RequestBody.additional, RequestBody.nonRep, RequestBody.maxRep, length_append,
        halfOctets_length, Nat.reduceAdd, ofNat_add_sub]
    have h := (readHalf_parses (ord16 big maxRep)).bind_pure (f := fun maxRep' =>
      AgentxDatagram.consume { r.afterContext big with
        nonRep := nonRep, maxRep := axtoh16 maxRep' (r.afterContext big).pduHdr.flags } 4)
    have horder : Announces (r.afterContext big).pduHdr.flags big := r.announces big
    rw [hafter]
    simp only [horder.axtoh16] at h ⊢
    exact h
  | get srs | getNext srs | testSet vbs =>
    rw [hplain (by rw [hbody]; rfl) (by rw [hbody]; rfl) (by rw [hbody]; rfl)]
    exact Parses.pure _

theorem body_cases (big : Bool) (r : XRequest) :
    (hasRanges r.body.type = true ∧ r.body.varBinds = [] ∧
        r.body.items big = r.body.ranges.flatMap (WireRange.octets big)) ∨
      (hasRanges r.body.type = false ∧ hasVarBinds r.body.type = true ∧ r.body.ranges = [] ∧
        r.body.items big = r.body.varBinds.flatMap (WireVarBind.octets big)) := by
  cases r.body with
  | get srs | getNext srs | getBulk nonRep maxRep srs => exact .inl ⟨rfl, rfl, append_nil _⟩
  | testSet vbs => exact .inr ⟨rfl, rfl, rfl, rfl⟩

/-- Items have octets. -/
theorem range_octets_ne_nil (big : Bool) (sr : WireRange) : sr.octets big ≠ [] := by
  simp [WireRange.octets, WireOid.octets]

theorem varBind_octets_ne_nil (big : Bool) (vb : WireVarBind) : vb.octets big ≠ [] := by
  simp [WireVarBind.octets]

theorem varBind_length_lt (hlen : (r.payload big).length < 2 ^ 16) {vb : WireVarBind}
    (hvb : vb ∈ r.body.varBinds) : (vb.octets big).length < 2 ^ 16 := by
  have hsub := (sublist_flatten_of_mem
    (mem_map_of_mem (f := WireVarBind.octets big) hvb)).length_le
  rw [← flatMap_def] at hsub
  simp only [payload, RequestBody.items, length_append] at hlen
  omega

theorem afterAdditional_payload (hlen : (r.payload big).length < 2 ^ 16) :
    (r.afterAdditional big).pduHdr.payloadLength.toNat = (r.body.items big).length := by
  simp only [payload, length_append] at hlen
  exact UInt32.toNat_ofNat_of_lt' (by rw [UInt32.size]; omega)

/-- Search ranges or varbinds are read if they fit. -/
theorem itemsParse_judges (hlen : (r.payload big).length < 2 ^ 16) :
    Judges (itemsParse (r.afterAdditional big))
      ((∀ sr ∈ r.body.ranges, sr.Fits) ∧ ∀ vb ∈ r.body.varBinds, vb.Fits big) (r.body.items big)
      (r.datagram big) := by
  have hpayload := afterAdditional_payload hlen
  have htype : (r.afterAdditional big).pduHdr.type = r.body.type := rfl
  refine Judges.get_bind fun c hc => ?_
  rw [htype]
  obtain ⟨hranges, hnil, hoctets⟩ | ⟨hranges, hvbs, hnil, hoctets⟩ := r.body_cases big
  · have hdatagram : r.datagram big = { (r.afterAdditional big).exhaust with
        srInList := r.body.ranges.map (WireRange.range big) } := by
      rw [datagram, hnil]
      rfl
    have hcount := length_le_flatMap (range_octets_ne_nil big) r.body.ranges
    rw [hoctets] at hpayload hc ⊢
    rw [if_pos hranges, hdatagram, hnil]
    exact (parseItems_judges (fun sr _ => sr.judges big) (range_octets_ne_nil big) (by omega)
      hpayload).bind_pure.congr (by simp)
  · have hdatagram : r.datagram big = { (r.afterAdditional big).exhaust with
        vbInList := r.body.varBinds.map (WireVarBind.varBind big) } := by
      rw [datagram, hnil]
      rfl
    have hcount := length_le_flatMap (varBind_octets_ne_nil big) r.body.varBinds
    rw [hoctets] at hpayload hc ⊢
    rw [if_neg (by rw [hranges]; exact Bool.false_ne_true), if_pos hvbs, hdatagram, hnil]
    exact (parseItems_judges (fun vb hvb => WireVarBind.judges (r.hdr_announces big)
      (varBind_length_lt hlen hvb)) (varBind_octets_ne_nil big) (by omega)
      hpayload).bind_pure.congr (by simp)

/-- **A request is decoded if it is accepted**, and else refused. -/
theorem agentxDecode_judges (hlen : (r.octets big).length ≤ transpBufSiz) :
    Judges agentxDecode (r.Accepted big) (r.octets big) (r.datagram big) := by
  have hpayload := payload_length_lt hlen
  refine ((readPduHdr_parses (r.hdr_announces big)).bind_judges
    ((contextParse_judges hpayload).bind ((additionalParse_parses big r).bind_judges
      (itemsParse_judges hpayload)))).congr ?_
  exact ⟨fun h => ⟨h.1, h.2.1, h.2.2⟩, fun h => ⟨h.context, h.ranges, h.varBinds⟩⟩

/-- Whatever is behind it. -/
theorem agentxDecode_eq (hlen : (r.octets big).length ≤ transpBufSiz) (h : r.Accepted big)
    (residue : List UInt8) :
    agentxDecode ⟨r.octets big ++ residue, 0⟩ =
      .ok (r.datagram big, ⟨r.octets big ++ residue, (r.octets big).length⟩) := by
  simpa using ((agentxDecode_judges hlen).1 h).2 [] residue

theorem agentxDecode_refused (hlen : (r.octets big).length ≤ transpBufSiz) (h : ¬r.Accepted big)
    (residue : List UInt8) : ∃ e, agentxDecode ⟨r.octets big ++ residue, 0⟩ = .error (.error e) := by
  simpa using (agentxDecode_judges hlen).2 h [] residue

end XRequest

end SmithSnmp
