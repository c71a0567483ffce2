import Mathlib.Algebra.BigOperators.Group.List.Basic
import SmithSnmp.AgentxOut

/-!
# AgentX Responses Decode Back

What `agentx_response_pdu` emits for varbinds that AgentX can carry is read back by
`agentx_decode`, as long as the length of the PDU fits into the 32 bits that are kept for it.

## Main results

* `xVarBindAlloc_parses`: an emitted varbind is read back.
* `parseItems_parses`: the loop of the decoder takes items until the payload is used up.
* `agentxResponsePdu_decodes`: the Response is read back if and only if it is shorter than
  `2 ^ 32` octets.
-/

namespace SmithSnmp

open List Lib Reader

variable {n : ℕ} {oid : Oid} {vb : XVarBind} {flags : UInt8} {payload : UInt32} {α : Type}
  {enc : α → List UInt8}

/-! ### Varbinds that AgentX can carry -/

/-- Object identifiers that AgentX can carry: none at all, or `1.3.6.1.p.rest`. -/
def ObjidForm (oid : Oid) : Prop :=
  oid = [] ∨ ∃ p rest, oid = 1 :: 3 :: 6 :: 1 :: p :: rest ∧ p ≤ 255 ∧ (1 ≤ p ∨ rest ≠ []) ∧
    oid.length ≤ asn1OidMaxLen

/-- The value of a varbind fits its type. -/
def XVarBind.ValueForm (vb : XVarBind) : Prop :=
  match valueLayout vb.valType with
  | .word => vb.value.length = 4
  | .long => vb.value.length = 8
  | .string => vb.value.length ≤ asn1ValueMaxLen ∧ vb.valLen = UInt32.ofNat vb.value.length
  | .objid => ∃ oid, ObjidForm oid ∧ vb.value = oid.flatMap leBytes ∧
      vb.valLen = UInt32.ofNat (4 * oid.length)
  | .none => vb.value = [] ∧ vb.valType < 256

/-- Outgoing varbinds. -/
structure XVarBind.Outgoing (vb : XVarBind) : Prop where
  name : ObjidForm vb.oid
  value : vb.ValueForm

/-- The number of elements of an outgoing value. -/
def XVarBind.elements (vb : XVarBind) : UInt32 :=
  match valueLayout vb.valType with
  | .word => 1
  | .long => 1
  | .string => vb.valLen
  | .objid => vb.valLen / 4
  | .none => 0

/-- The varbind as it comes in: the same type, name and value, under a length in elements. -/
def XVarBind.received (vb : XVarBind) : XVarBind := { vb with valLen := vb.elements }

/-! ### Numbers and object identifiers -/

theorem readHalf_parses (v : UInt16) : Parses readHalf (leBytes16 v) (leBytes16 v) v := by
  have h := (Parses.octets (ε := AgentxErrCode) (leBytes16_length v)).bind_pure (f := peekHalf)
  rwa [peekHalf_leBytes16] at h

theorem readWord_parses (v : UInt32) : Parses readWord (leBytes v) (leBytes v) v := by
  have h := (Parses.octets (ε := AgentxErrCode) (leBytes_length v)).bind_pure (f := peekWord)
  rwa [peekWord_leBytes] at h

theorem readWords_parses {ids : List UInt32} (h : ids.length = n) :
    Parses (readWords n) (ids.flatMap leBytes) (ids.flatMap leBytes) ids := by
  subst h
  have hp := (Parses.octets (ε := AgentxErrCode) (flatMap_leBytes_length ids)).bind_pure
    (f := fun bs => peekOid bs ids.length)
  have hoid := peekOid_flatMap_leBytes ids []
  rw [append_nil] at hoid
  rwa [hoid] at hp

/-- The first octets of an object identifier, unless it is too long. -/
theorem objidHead_judges (limit : ℕ) (err : AgentxErrCode) (nSubid pfx : UInt8) :
    Judges (objidHead limit err) (objidDecTry nSubid pfx ≤ limit) [nSubid, pfx] (nSubid, pfx) :=
  (Parses.octet nSubid).bind_judges ((Parses.octet pfx).bind_judges
    (Judges.check err not_lt.symm fun _ => Parses.pure _))

/-- The sub-identifiers behind the first octets of an object identifier. -/
theorem objidTail_parses (pfx : UInt8) {nSubid : UInt8} {ids : List UInt32}
    (h : ids.length = nSubid.toNat) :
    Parses (objidTail (nSubid, pfx)) (ids.flatMap leBytes) (ids.flatMap leBytes)
      (if isNullObjid nSubid pfx then [] else 1 :: 3 :: 6 :: 1 :: pfx.toUInt32 :: ids) := by
  rw [objidTail]
  cases hnull : isNullObjid nSubid pfx with
  | true =>
    simp only [isNullObjid, Bool.and_eq_true, decide_eq_true_eq] at hnull
    rw [hnull.1] at h
    rw [eq_nil_of_length_eq_zero h]
    exact Parses.pure _
  | false => exact (readWords_parses h).bind_pure

/-- The number of sub-identifiers that is emitted behind `1.3.6.1` and a prefix. -/
theorem objidNSubid_cons (p : UInt32) (rest : Oid) :
    objidNSubid (1 :: 3 :: 6 :: 1 :: p :: rest) = UInt8.ofNat rest.length := by
  cases rest with
  | nil => rfl
  | cons subId rest => simp [objidNSubid]

theorem objidPfx_cons (p : UInt32) (rest : Oid) :
    objidPfx (1 :: 3 :: 6 :: 1 :: p :: rest) = p.toUInt8 := by
  simp [objidPfx]

/-- A prefix of one octet. -/
theorem toUInt8_toUInt32_of_le {p : UInt32} (hp : p ≤ 255) : p.toUInt8.toUInt32 = p := by
  rw [← UInt32.toNat_inj]
  have hp₁ : p.toNat ≤ 255 := UInt32.le_iff_toNat_le.mp hp
  simp only [UInt8.toNat_toUInt32, UInt32.toNat_toUInt8]
  omega

/-- The number of sub-identifiers and the prefix of an object identifier fit, and the
sub-identifiers are read back. -/
theorem ObjidForm.parses (h : ObjidForm oid) :
    objidDecTry (objidNSubid oid) (objidPfx oid) ≤ 4 * asn1OidMaxLen ∧
      Parses (objidTail (objidNSubid oid, objidPfx oid)) ((oid.drop 5).flatMap leBytes)
        ((oid.drop 5).flatMap leBytes) oid := by
  obtain rfl | ⟨p, rest, rfl, hp, hrest, hlen⟩ := h
  · exact ⟨by decide, Parses.pure _⟩
  · have hn : (UInt8.ofNat rest.length).toNat = rest.length := by
      simp only [length_cons, asn1OidMaxLen] at hlen
      exact UInt8.toNat_ofNat_of_lt' (by simp [UInt8.size]; omega)
    have hp' : p.toUInt8.toUInt32 = p := toUInt8_toUInt32_of_le hp
    have hnull : isNullObjid (UInt8.ofNat rest.length) p.toUInt8 = false := by
      rw [isNullObjid, Bool.and_eq_false_iff, decide_eq_false_iff_not, decide_eq_false_iff_not]
      obtain hp₁ | hrest := hrest
      · refine .inr fun h => ?_
        rw [h] at hp'
        exact absurd (hp' ▸ hp₁) (by decide)
      · refine .inl fun h => hrest ?_
        rw [h] at hn
        exact eq_nil_of_length_eq_zero hn.symm
    rw [objidNSubid_cons, objidPfx_cons]
    constructor
    · rw [objidDecTry, hnull, hn, if_neg Bool.false_ne_true]
      simp only [length_cons] at hlen
      omega
    · have h := objidTail_parses p.toUInt8 hn.symm
      rwa [hnull, if_neg Bool.false_ne_true, hp'] at h

/-- The octets of an object identifier. -/
theorem objidEnc_length (oid : Oid) : (objidEnc oid).length = 4 + 4 * (oid.length - 5) := by
  rw [objidEnc, length_append, flatMap_leBytes_length, length_drop]
  rfl

/-- There are not many sub-identifiers. -/
theorem ObjidForm.length_le (h : ObjidForm oid) : oid.length ≤ asn1OidMaxLen := by
  obtain rfl | ⟨p, rest, -, -, -, hlen⟩ := h
  · exact Nat.zero_le _
  · exact hlen

/-! ### Varbinds -/

/-- Only the low byte of a type is looked at when a varbind comes in. -/
theorem XVarBind.Outgoing.layout (h : vb.Outgoing) :
    valueLayout vb.valType.toUInt8.toUInt16 = valueLayout vb.valType := by
  have hlt : vb.valType < 256 := by
    have hv := h.value
    rw [XVarBind.ValueForm] at hv
    by_cases hnone : valueLayout vb.valType = .none
    · rw [hnone] at hv
      exact hv.2
    · rw [valueLayout] at hnone
      split at hnone
      · next ht => rcases ht with ht | ht | ht | ht <;> rw [ht] <;> decide
      · split at hnone
        · next ht => rw [ht]; decide
        · split at hnone
          · next ht => rcases ht with ht | ht <;> rw [ht] <;> decide
          · split at hnone
            · next ht => rw [ht]; decide
            · exact absurd rfl hnone
  have heq : vb.valType.toUInt8.toUInt16 = vb.valType := by
    rw [← UInt16.toNat_inj]
    have hlt' : vb.valType.toNat < 256 := UInt16.lt_iff_toNat_lt.mp hlt
    simp only [UInt8.toNat_toUInt16, UInt16.toNat_toUInt8]
    omega
  rw [heq]

/-- A short length in 32 bits. -/
theorem toNat_ofNat_of_le (h : n ≤ asn1ValueMaxLen) : (UInt32.ofNat n).toNat = n :=
  UInt32.toNat_ofNat_of_lt' (by simp [asn1ValueMaxLen, UInt32.size] at *; omega)

/-- The bytes of a few sub-identifiers in 32 bits. -/
theorem toNat_words (h : n ≤ asn1OidMaxLen) : (UInt32.ofNat (4 * n)).toNat = 4 * n :=
  toNat_ofNat_of_le (by simp only [asn1OidMaxLen, asn1ValueMaxLen] at *; omega)

/-- The number of a few sub-identifiers, from that of their bytes. -/
theorem ofNat_words_div (h : n ≤ asn1OidMaxLen) : UInt32.ofNat (4 * n) / 4 = UInt32.ofNat n := by
  have hn : (UInt32.ofNat n).toNat = n :=
    toNat_ofNat_of_le (by simp only [asn1OidMaxLen, asn1ValueMaxLen] at *; omega)
  rw [← UInt32.toNat_inj, UInt32.toNat_div, toNat_words h, hn]
  exact Nat.mul_div_cancel_left _ (by decide)

/-- The octets of an object identifier as a value. -/
theorem xValueEnc_objid (hlen : oid.length ≤ asn1OidMaxLen)
    (htype : valueLayout vb.valType = .objid) (hvalue : vb.value = oid.flatMap leBytes)
    (hvalLen : vb.valLen = UInt32.ofNat (4 * oid.length)) : xValueEnc vb = objidEnc oid := by
  have hmem := peekOid_flatMap_leBytes oid []
  rw [append_nil] at hmem
  rw [xValueEnc, htype]
  dsimp only
  rw [hvalue, hvalLen, toNat_words hlen, Nat.mul_div_cancel_left _ (by decide), hmem,
    Nat.mul_mod_right, ite_self, replicate_zero, append_nil]

/-- An emitted value is read back. -/
theorem agentxValueDec_parses (h : vb.Outgoing) :
    Parses (agentxValueDec vb.valType.toUInt8) (xValueEnc vb) (xValueEnc vb)
      (vb.elements, vb.value) := by
  have hv := h.value
  rw [XVarBind.ValueForm] at hv
  rw [agentxValueDec, h.layout, XVarBind.elements]
  cases hlayout : valueLayout vb.valType with
  | word | long =>
    rw [hlayout] at hv
    rw [xValueEnc, hlayout]
    dsimp only at hv ⊢
    rw [← hv, peekBytes_self]
    exact (Parses.octets rfl).bind_pure
  | string =>
    rw [hlayout] at hv
    rw [xValueEnc, hlayout]
    dsimp only at hv ⊢
    obtain ⟨hle, hlen⟩ := hv
    have hn : vb.valLen.toNat = vb.value.length := by rw [hlen, toNat_ofNat_of_le hle]
    rw [append_assoc, hn, peekBytes_self]
    refine (readWord_parses vb.valLen).bind ?_
    rw [if_neg (by omega), hn]
    refine (Parses.octets rfl).bind ?_
    exact (Parses.skip _ (length_replicate ..)).bind_pure
  | objid =>
    rw [hlayout] at hv
    dsimp only at hv ⊢
    obtain ⟨oid, hoid, hvalue, hlen⟩ := hv
    obtain ⟨htry, htail⟩ := hoid.parses
    rw [xValueEnc_objid hoid.length_le hlayout hvalue hlen, hvalue, hlen,
      ofNat_words_div hoid.length_le]
    refine ((objidHead_judges ..).1 (htry.trans (by decide))).bind ?_
    refine (Parses.skip [0, 0] rfl).bind ?_
    exact htail.bind_pure
  | none =>
    rw [hlayout] at hv
    rw [xValueEnc, hlayout]
    dsimp only at hv ⊢
    rw [hv.1]
    exact Parses.pure _

theorem axtoh16_eq (h : flags &&& networdByteOrder = 0) (x : UInt16) : axtoh16 x flags = x := by
  rw [axtoh16, if_neg (not_not.mpr h)]

theorem axtoh32_eq (h : flags &&& networdByteOrder = 0) (x : UInt32) : axtoh32 x flags = x := by
  rw [axtoh32, if_neg (not_not.mpr h)]

/-- **An emitted varbind is read back.** -/
theorem xVarBindAlloc_parses (hflags : flags &&& networdByteOrder = 0) (h : vb.Outgoing) :
    Parses (xVarBindAlloc flags) (xVarBindEnc vb) (xVarBindEnc vb) vb.received := by
  obtain ⟨htry, htail⟩ := h.name.parses
  have henc : xVarBindEnc vb = leBytes16 vb.valType ++ ([0, 0] ++
      ([objidNSubid vb.oid, objidPfx vb.oid] ++ ([0, 0] ++
        ((vb.oid.drop 5).flatMap leBytes ++ xValueEnc vb)))) := by
    simp [xVarBindEnc, objidEnc]
  rw [henc]
  refine (readHalf_parses vb.valType).bind ?_
  rw [axtoh16_eq hflags]
  refine (Parses.skip _ rfl).bind (((objidHead_judges ..).1 htry).bind ((Parses.skip _ rfl).bind ?_))
  exact htail.bind (agentxValueDec_parses h).bind_pure

/-! ### The loop over the items -/

/-- A round of the loop leaves the payload of the items that are left. -/
theorem payload_sub {m : ℕ} (hpayload : payload.toNat = n + m) :
    (payload - UInt32.ofNat n).toNat = m := by
  have hlt := payload.toNat_lt
  have hn : (UInt32.ofNat n).toNat = n := UInt32.toNat_ofNat_of_lt' (by rw [UInt32.size]; omega)
  rw [UInt32.toNat_sub_of_le _ _ (UInt32.le_iff_toNat_le.mpr (by omega)), hn]
  omega

/-- Items are left as long as there is a payload. -/
theorem payload_ne_zero {m : ℕ} (hn : n ≠ 0) (hpayload : payload.toNat = n + m) : payload ≠ 0 := by
  rintro rfl
  rw [UInt32.toNat_zero] at hpayload
  omega

/-- There are no more items than octets. -/
theorem length_le_flatMap (hne : ∀ a, enc a ≠ []) (as : List α) :
    as.length ≤ (as.flatMap enc).length := by
  have h := length_le_sum_of_one_le (as.map fun a => (enc a).length) <|
    forall_mem_map.mpr fun a _ => length_pos_of_ne_nil (hne a)
  rwa [length_map, ← length_flatMap] at h

/-- **The loop takes items until the payload is used up**, or one is refused. -/
theorem parseItems_judges {β : Type} {item : XReader β} {dec : α → β} {as : List α} {ok : α → Prop}
    (h : ∀ a ∈ as, Judges item (ok a) (enc a) (dec a)) (hne : ∀ a, enc a ≠ []) {fuel : ℕ}
    (hfuel : as.length < fuel) (hpayload : payload.toNat = (as.flatMap enc).length) :
    Judges (parseItems item fuel payload) (∀ a ∈ as, ok a) (as.flatMap enc) (as.map dec) := by
  induction as generalizing fuel payload with
  | nil =>
    obtain ⟨fuel, rfl⟩ := Nat.exists_eq_succ_of_ne_zero (Nat.ne_of_gt hfuel)
    rw [parseItems, if_pos (UInt32.toNat_inj.mp hpayload)]
    exact (Parses.pure _).judges.congr (by simp)
  | cons a as ih =>
    obtain ⟨fuel, rfl⟩ := Nat.exists_eq_succ_of_ne_zero (Nat.ne_of_gt (Nat.zero_lt_of_lt hfuel))
    rw [flatMap_cons, length_append] at hpayload
    have hnonzero := payload_ne_zero (mt eq_nil_of_length_eq_zero (hne a)) hpayload
    have hrest := ih (fun b hb => h b (mem_cons_of_mem a hb)) (Nat.lt_of_succ_lt_succ hfuel)
      (payload_sub hpayload)
    rw [parseItems, if_neg hnonzero, flatMap_cons, map_cons]
    exact ((h a mem_cons_self).measured.bind hrest.bind_pure).congr forall_mem_cons.symm

/-! ### Lengths -/

/-- What the length pass adds for an object identifier, from the number of its bytes and
from that of its sub-identifiers. -/
theorem objidLen_eq : ∀ n ≤ asn1OidMaxLen,
    (if 20 < UInt32.ofNat (4 * n) then 4 + (UInt32.ofNat (4 * n) - 20) else 4) =
        UInt32.ofNat (4 + 4 * (n - 5)) ∧
      (if 5 < UInt32.ofNat n then 8 + (UInt32.ofNat n - 5) * 4 else 8) =
        UInt32.ofNat (4 + (4 + 4 * (n - 5))) := by
  decide

theorem xValueLen_eq (h : vb.Outgoing) : xValueLen vb = UInt32.ofNat (xValueEnc vb).length := by
  have hv := h.value
  rw [XVarBind.ValueForm] at hv
  rw [xValueLen]
  cases hlayout : valueLayout vb.valType with
  | word | long =>
    rw [hlayout] at hv
    rw [xValueEnc, hlayout]
    dsimp only at hv ⊢
    rw [← hv, peekBytes_self, hv]
    rfl
  | string =>
    rw [hlayout] at hv
    rw [xValueEnc, hlayout]
    dsimp only at hv ⊢
    obtain ⟨hle, hlen⟩ := hv
    have hn : vb.valLen.toNat = vb.value.length := by rw [hlen, toNat_ofNat_of_le hle]
    have hpad : vb.value.length ≤ uintSizeof vb.value.length := by
      rw [uintSizeof]
      omega
    rw [hn, peekBytes_self]
    simp only [length_append, leBytes_length, length_replicate]
    rw [show 4 + vb.value.length + (uintSizeof vb.value.length - vb.value.length) =
      4 + uintSizeof vb.value.length by omega]
    exact (UInt32.ofNat_add ..).symm
  | objid =>
    rw [hlayout] at hv
    dsimp only at hv ⊢
    obtain ⟨oid, hoid, hvalue, hlen⟩ := hv
    have hle := hoid.length_le
    rw [xValueEnc_objid hle hlayout hvalue hlen, hlen, objidEnc_length, (objidLen_eq _ hle).1]
  | none =>
    rw [xValueEnc, hlayout]
    rfl

theorem xVarBindEnc_length (vb : XVarBind) :
    (xVarBindEnc vb).length = 4 + (4 + 4 * (vb.oid.length - 5)) + (xValueEnc vb).length := by
  rw [xVarBindEnc, length_append, length_append, objidEnc_length]
  rfl

theorem xVarBindLen_eq (h : vb.Outgoing) :
    xVarBindLen vb = UInt32.ofNat (xVarBindEnc vb).length := by
  rw [xVarBindLen, xVarBindEnc_length, xValueLen_eq h, UInt32.ofNat_add _ (xValueEnc vb).length]
  exact congrArg (· + _) (objidLen_eq _ h.name.length_le).2

/-- The octets of a Response. -/
def xResponseSize (vbs : List XVarBind) : ℕ := 28 + (vbs.flatMap xVarBindEnc).length

/-- **The length pass** counts the octets of a Response in 32 bits. -/
theorem responseLen_eq {vbs : List XVarBind} (h : ∀ vb ∈ vbs, vb.Outgoing) :
    responseLen vbs = UInt32.ofNat (xResponseSize vbs) := by
  have hfold : ∀ n, vbs.foldl (fun len vb => len + xVarBindLen vb) (UInt32.ofNat n) =
      UInt32.ofNat (n + (vbs.flatMap xVarBindEnc).length) := by
    induction vbs with
    | nil => exact fun n => rfl
    | cons vb vbs ih =>
      intro n
      rw [foldl_cons, xVarBindLen_eq (h vb mem_cons_self), ← UInt32.ofNat_add,
        ih fun vb' hvb' => h vb' (mem_cons_of_mem vb hvb'), flatMap_cons,
        length_append, Nat.add_assoc]
  exact hfold 28

/-- The octets that are emitted. -/
theorem agentxResponsePdu_length (xdg : AgentxDatagram) :
    (agentxResponsePdu xdg).buf.length = xResponseSize xdg.vbOutList := by
  simp only [agentxResponsePdu, pduHdrEnc, length_append, length_cons, length_nil,
    leBytes_length, leBytes16_length, xResponseSize]

/-! ### The PDU -/

/-- A header is read back. -/
theorem readPduHdr_parses {ph : XPduHdr} (hflags : ph.flags &&& networdByteOrder = 0) :
    Parses readPduHdr (pduHdrEnc ph) (pduHdrEnc ph) ph := by
  have henc : pduHdrEnc ph = [ph.version] ++ ([ph.type] ++ ([ph.flags] ++ ([ph.reserved] ++
      (leBytes ph.sessionId ++ (leBytes ph.transactionId ++ (leBytes ph.packetId ++
        leBytes ph.payloadLength)))))) := by
    simp [pduHdrEnc]
  rw [henc]
  refine (Parses.octet _).bind ((Parses.octet _).bind ((Parses.octet _).bind
    ((Parses.octet _).bind ?_)))
  refine (readWord_parses _).bind ((readWord_parses _).bind ((readWord_parses _).bind ?_))
  have h := (readWord_parses ph.payloadLength).bind_pure (f := fun payloadLength =>
    ({ ph with payloadLength := axtoh32 payloadLength ph.flags } : XPduHdr))
  simp only [axtoh32_eq hflags] at h ⊢
  exact h

/-- What the receiver of a Response finds in its datagram. -/
def responseReceived (xdg : AgentxDatagram) : AgentxDatagram where
  pduHdr := { responseHdr xdg with payloadLength := 0 }
  error := xdg.error
  index := xdg.index
  vbInList := xdg.vbOutList.map XVarBind.received

theorem additionalParse_parses {ph : XPduHdr} (htype : ph.type = agentxPduResponse)
    (hflags : ph.flags &&& networdByteOrder = 0) (sysUpTime : UInt32) (error index : UInt16) :
    Parses (additionalParse { pduHdr := ph })
      (leBytes sysUpTime ++ (leBytes16 error ++ leBytes16 index))
      (leBytes sysUpTime ++ (leBytes16 error ++ leBytes16 index))
      (AgentxDatagram.consume
        { pduHdr := ph, sysUpTime := sysUpTime, error := error, index := index } 8) := by
  rw [additionalParse]
  dsimp only
  rw [if_neg (by rw [htype]; decide), if_neg (by rw [htype]; decide), if_pos htype]
  refine (readWord_parses _).bind ((readHalf_parses _).bind ?_)
  have h := (readHalf_parses index).bind_pure (f := fun index => AgentxDatagram.consume
    { pduHdr := ph, sysUpTime := sysUpTime, error := error, index := axtoh16 index ph.flags } 8)
  simp only [axtoh16_eq hflags, axtoh32_eq hflags] at h ⊢
  exact h

theorem itemsParse_parses {xdg : AgentxDatagram} {vbs : List XVarBind}
    (htype : xdg.pduHdr.type = agentxPduResponse)
    (hflags : xdg.pduHdr.flags &&& networdByteOrder = 0) (hvbs : ∀ vb ∈ vbs, vb.Outgoing)
    (hpayload : xdg.pduHdr.payloadLength.toNat = (vbs.flatMap xVarBindEnc).length) :
    Parses (itemsParse xdg) (vbs.flatMap xVarBindEnc) (vbs.flatMap xVarBindEnc)
      { xdg.exhaust with vbInList := vbs.map XVarBind.received } := by
  have hne : ∀ vb, xVarBindEnc vb ≠ [] := fun vb => ne_nil_of_length_pos (by
    rw [xVarBindEnc_length]
    omega)
  have hcount := length_le_flatMap hne vbs
  refine Parses.get_bind fun c hc => ?_
  dsimp only
  rw [htype, if_neg (by decide), if_pos (by decide)]
  exact ((parseItems_judges (fun vb hvb => (xVarBindAlloc_parses hflags (hvbs vb hvb)).judges)
    hne (by omega) hpayload).1 fun _ _ => trivial).bind_pure

/-- A Response whose length fits is read back. -/
theorem agentxDecode_parses {xdg : AgentxDatagram}
    (hflags : xdg.pduHdr.flags &&& networdByteOrder = 0)
    (hctx : xdg.pduHdr.flags &&& nonDefaultContext = 0)
    (hvbs : ∀ vb ∈ xdg.vbOutList, vb.Outgoing) (hsize : xResponseSize xdg.vbOutList < 2 ^ 32) :
    Parses agentxDecode (agentxResponsePdu xdg).buf (agentxResponsePdu xdg).buf
      (responseReceived xdg) := by
  have hlen : (responseLen xdg.vbOutList).toNat = xResponseSize xdg.vbOutList := by
    rw [responseLen_eq hvbs]
    exact UInt32.toNat_ofNat_of_lt' hsize
  have hpdu : (agentxResponsePdu xdg).buf = pduHdrEnc (responseHdr xdg) ++
      ((leBytes 0 ++ (leBytes16 xdg.error ++ leBytes16 xdg.index)) ++
        xdg.vbOutList.flatMap xVarBindEnc) := by
    simp only [agentxResponsePdu, append_assoc]
    rfl
  rw [hpdu]
  refine (readPduHdr_parses (by exact hflags)).bind ?_
  refine Parses.bind_nil (a := { pduHdr := responseHdr xdg }) ?_ ?_
  · rw [contextParse, if_neg (not_not.mpr (by exact hctx))]
    exact Parses.pure _
  · refine (additionalParse_parses rfl (by exact hflags) 0 xdg.error xdg.index).bind ?_
    refine itemsParse_parses rfl (by exact hflags) hvbs ?_
    change (responseLen xdg.vbOutList - 20 - 8).toNat = _
    rw [xResponseSize] at hlen hsize
    simp only [UInt32.toNat_sub, UInt32.reduceToNat]
    omega

/-- **Responses decode back** if and only if they are shorter than `2 ^ 32` octets: as many
octets are emitted as the length pass counted, `20 + payload_length` of them, and the decoder
moves over exactly these and finds the error, the index and the varbinds. -/
theorem agentxResponsePdu_decodes (xdg : AgentxDatagram) (post : List UInt8)
    (hflags : xdg.pduHdr.flags &&& networdByteOrder = 0)
    (hctx : xdg.pduHdr.flags &&& nonDefaultContext = 0)
    (hvbs : ∀ vb ∈ xdg.vbOutList, vb.Outgoing) :
    ((agentxResponsePdu xdg).buf.length = (agentxResponsePdu xdg).len.toNat ∧
      (agentxResponsePdu xdg).buf.length = 20 + (responseHdr xdg).payloadLength.toNat ∧
      agentxDecode ⟨(agentxResponsePdu xdg).buf ++ post, 0⟩ =
        .ok (responseReceived xdg,
          ⟨(agentxResponsePdu xdg).buf ++ post, (agentxResponsePdu xdg).buf.length⟩)) ↔
      xResponseSize xdg.vbOutList < 2 ^ 32 := by
  constructor
  · rintro ⟨hlen, -, -⟩
    rw [agentxResponsePdu_length] at hlen
    rw [hlen]
    exact UInt32.toNat_lt _
  · intro hsize
    have hlen : (responseLen xdg.vbOutList).toNat = xResponseSize xdg.vbOutList := by
      rw [responseLen_eq hvbs]
      exact UInt32.toNat_ofNat_of_lt' hsize
    have hge : 28 ≤ xResponseSize xdg.vbOutList := Nat.le_add_right _ _
    refine ⟨?_, ?_, ?_⟩
    · rw [agentxResponsePdu_length]
      exact hlen.symm
    · rw [agentxResponsePdu_length, responseHdr, UInt32.toNat_sub_of_le _ _ (by
        rw [UInt32.le_iff_toNat_le, hlen]
        exact Nat.le_trans (by decide) hge), hlen]
      exact (Nat.add_sub_of_le (Nat.le_trans (by decide) hge)).symm
    · have h := (agentxDecode_parses hflags hctx hvbs hsize).2 [] post
      simpa using h

/-- A Response with an error and three varbinds. -/
def sampleAnswer : AgentxDatagram where
  pduHdr := { version := 1, type := agentxPduGet, sessionId := 7, transactionId := 3, packetId := 9 }
  error := 5
  index := 2
  vbOutList := [
    { oid := [1, 3, 6, 1, 2, 1, 1, 3, 0], valType := asn1TagTimeticks.toUInt16, valLen := 4,
      value := [0x10, 0x27, 0, 0] },
    { oid := [1, 3, 6, 1, 2, 1, 1, 1, 0], valType := asn1TagOctstr.toUInt16, valLen := 3,
      value := [0x61, 0x62, 0x63] },
    { oid := [], valType := asn1TagObjid.toUInt16, valLen := 24,
      value := [1, 0, 0, 0, 3, 0, 0, 0, 6, 0, 0, 0, 1, 0, 0, 0, 0, 0, 0, 0, 5, 0, 0, 0] }]

/-- The varbinds of the sample can be carried. -/
theorem sampleAnswer_outgoing : ∀ vb ∈ sampleAnswer.vbOutList, vb.Outgoing := by
  have hname : ∀ rest : Oid, rest.length ≤ 59 → ObjidForm (1 :: 3 :: 6 :: 1 :: 2 :: rest) := by
    refine fun rest h => .inr ⟨2, rest, rfl, by decide, .inl (by decide), ?_⟩
    simp only [length_cons, asn1OidMaxLen]
    omega
  intro vb hvb
  simp only [sampleAnswer, mem_cons, not_mem_nil, or_false] at hvb
  obtain rfl | rfl | rfl := hvb
  · exact ⟨hname _ (by decide), rfl⟩
  · exact ⟨hname _ (by decide), by decide, rfl⟩
  · exact ⟨.inl rfl, [1, 3, 6, 1, 0, 5], .inr ⟨0, [5], rfl, by decide, .inr (by decide), by decide⟩,
      rfl, rfl⟩

/-- The sample is read back from the 104 octets that are emitted for it. -/
theorem sampleAnswer_decodes :
    (agentxResponsePdu sampleAnswer).len = 104 ∧
      agentxDecode ⟨(agentxResponsePdu sampleAnswer).buf ++ [0xff], 0⟩ =
        .ok (responseReceived sampleAnswer, ⟨(agentxResponsePdu sampleAnswer).buf ++ [0xff], 104⟩) :=
  ⟨by decide, ((agentxResponsePdu_decodes sampleAnswer [0xff] (by decide) (by decide)
    sampleAnswer_outgoing).mpr (by decide)).2.2⟩

/-- An answer of `2 ^ 29` integers. -/
def hugeAnswer : AgentxDatagram where
  pduHdr := { version := 1, type := agentxPduGet }
  vbOutList := List.replicate (2 ^ 29)
    { oid := [1, 3, 6, 1, 2], valType := asn1TagInt.toUInt16, valLen := 4, value := [1, 0, 0, 0] }

/-- **The length pass wraps around**: more octets are emitted than it counts. -/
theorem hugeAnswer_overruns :
    (∀ vb ∈ hugeAnswer.vbOutList, vb.Outgoing) ∧
      (agentxResponsePdu hugeAnswer).buf.length ≠ (agentxResponsePdu hugeAnswer).len.toNat := by
  constructor
  · intro vb hvb
    obtain rfl := eq_of_mem_replicate hvb
    exact ⟨.inr ⟨2, [], rfl, by decide, .inl (by decide), by decide⟩, rfl⟩
  · have hsize : 2 ^ 32 ≤ xResponseSize hugeAnswer.vbOutList := by
      have hvb : ∀ vb ∈ hugeAnswer.vbOutList, (xVarBindEnc vb).length = 12 := by
        intro vb hvb
        obtain rfl := eq_of_mem_replicate hvb
        rfl
      rw [xResponseSize, length_flatMap, map_congr_left hvb]
      simp only [hugeAnswer, map_const', length_replicate, sum_replicate]
      decide
    rw [agentxResponsePdu_length]
    exact Nat.ne_of_gt (lt_of_lt_of_le (UInt32.toNat_lt _) hsize)

end SmithSnmp
