import SmithSnmp.AgentxOrder

/-!
# Object Identifiers of AgentX

In an AgentX PDU a prefix `p` other than zero stands for `1.3.6.1.p`, and with the prefix zero all
sub-identifiers are listed. The decoder takes the prefix zero for `1.3.6.1.0`, and the encoder
always leaves out five sub-identifiers. So what comes in has to be compressed, and what goes out has
to be compressible.

## Main results

* `WireOid.oid_eq_meaning_iff`: what the decoder makes of an object identifier.
* `objidEnc_takenFor_iff`: what the encoder writes for one.
* `agentxObjid_conforms_iff`: both together, for names and values.
-/

namespace SmithSnmp

open List Lib Reader

/-! ### Decoding -/

/-- The object identifier that a master means. -/
def WireOid.meaning (e : WireOid) : Oid :=
  if e.pfx = 0 then e.ids else 1 :: 3 :: 6 :: 1 :: e.pfx.toUInt32 :: e.ids

/-- The number of elements and the bytes of an object identifier in memory. -/
def objidElements (oid : Oid) : UInt32 × List UInt8 :=
  (UInt32.ofNat oid.length, oid.flatMap leBytes)

/-- Sub-identifiers that are read as they are meant. -/
theorem map_ord_eq_self_iff {big : Bool} {ids : List UInt32} :
    ids.map (ord big) = ids ↔ ∀ id ∈ ids, ord big id = id := by
  have hinj : ids.map (ord big) = ids.map id ↔ ∀ i ∈ ids, ord big i = id i := map_inj_left
  rwa [map_id] at hinj

/-- **The decoder takes every prefix for `1.3.6.1.p`**, and the sub-identifiers as they stand. -/
theorem WireOid.oid_eq_meaning_iff (big : Bool) (e : WireOid) :
    e.oid big = e.meaning ↔
      e.meaning = [] ∨ (e.pfx ≠ 0 ∧ ∀ id ∈ e.ids, ord big id = id) := by
  have hnum : e.nSubid = 0 ↔ e.ids = [] := by
    have hlen := e.length_ids big
    rw [length_map] at hlen
    rw [← length_eq_zero_iff, hlen, ← UInt8.toNat_inj]
    rfl
  rw [oid, meaning]
  by_cases hpfx : e.pfx = 0
  · by_cases hids : e.ids = []
    · simp [isNullObjid, hpfx, hnum.mpr hids, hids]
    · have hnull : isNullObjid e.nSubid e.pfx = false := by simp [isNullObjid, hnum, hids]
      have hlong : 1 :: 3 :: 6 :: 1 :: e.pfx.toUInt32 :: e.ids.map (ord big) ≠ e.ids := by
        intro heq
        have hlen := congrArg List.length heq
        simp only [length_cons, length_map] at hlen
        omega
      rw [hnull, if_neg Bool.false_ne_true, if_pos hpfx]
      refine iff_of_false hlong ?_
      rintro (hnil | ⟨hne, -⟩)
      · exact hids hnil
      · exact hne hpfx
  · have hnull : isNullObjid e.nSubid e.pfx = false := by simp [isNullObjid, hpfx]
    simp [hnull, hpfx, map_ord_eq_self_iff]

/-- Short object identifiers in memory are told apart. -/
theorem objidElements_inj {oid oid' : Oid} (h : oid.length ≤ asn1ValueMaxLen)
    (h' : oid'.length ≤ asn1ValueMaxLen) : objidElements oid = objidElements oid' ↔ oid = oid' := by
  refine ⟨fun heq => ?_, fun heq => heq ▸ rfl⟩
  obtain ⟨hnum, hbytes⟩ := Prod.mk.inj heq
  have hlen := congrArg UInt32.toNat hnum
  rw [toNat_ofNat_of_le h, toNat_ofNat_of_le h'] at hlen
  exact (flatMap_leBytes_inj hlen).mp hbytes

/-- What is read from the octets of an object identifier that is not too long. -/
theorem WireOid.parses_iff (big : Bool) {e : WireOid} (hlen : e.meaning.length ≤ asn1OidMaxLen) :
    Parses (agentxValueDec asn1TagObjid) (e.octets big 0) (e.octets big 0)
      (objidElements e.meaning) ↔ e.oid big = e.meaning := by
  have hmax : asn1OidMaxLen = 64 ∧ asn1ValueMaxLen = 1024 := ⟨rfl, rfl⟩
  have hshort : e.ids.length ≤ 64 := by
    rw [meaning] at hlen
    split at hlen
    · exact hlen
    · simp only [length_cons] at hlen
      omega
  have hnum : e.nSubid.toNat = e.ids.length := by
    rw [← e.length_ids big, length_map]
  have hfits : (WireValue.objid e).Fits big := by
    rw [WireValue.Fits, WireOid.Fits, objidDecTry]
    split <;> omega
  have hoid : (e.oid big).length ≤ asn1ValueMaxLen := by
    rw [WireOid.oid]
    split
    · exact Nat.zero_le _
    · simp only [length_cons, length_map]
      omega
  have hoctets : ((WireValue.objid e).octets big).length < 2 ^ 16 := by
    rw [WireValue.octets, WireOid.octets_length]
    omega
  have hparses : Parses (agentxValueDec asn1TagObjid) (e.octets big 0) (e.octets big 0)
      (objidElements (e.oid big)) :=
    (WireValue.judges rfl hoctets).1 hfits
  rw [← objidElements_inj hoid (by omega)]
  exact ⟨fun h => hparses.unique h, fun heq => heq ▸ hparses⟩

/-! ### Encoding -/

/-- The octets are an object identifier that a master takes for `oid`. -/
def TakenFor (big : Bool) (bs : List UInt8) (oid : Oid) : Prop :=
  ∃ e : WireOid, e.octets big 0 = bs ∧ e.meaning = oid

/-- Object identifiers whose first five sub-identifiers can be left out, if there are any; the
others look the same in both byte orders, if that of the PDU is not that of the host. -/
def Compressible (big : Bool) (oid : Oid) : Prop :=
  oid = [] ∨ ∃ p rest, oid = 1 :: 3 :: 6 :: 1 :: p :: rest ∧ 0 < p ∧ p < 256 ∧
    ∀ id ∈ rest, ord big id = id

/-- **The encoder always leaves out five sub-identifiers.** -/
theorem objidEnc_takenFor_iff (big : Bool) {oid : Oid} (hlen : oid.length ≤ asn1OidMaxLen) :
    TakenFor big (objidEnc oid) oid ↔ Compressible big oid := by
  constructor
  · rintro ⟨e, hoctets, hmeaning⟩
    have hlength := congrArg List.length hoctets
    rw [WireOid.octets_length, objidEnc_length] at hlength
    have hids : e.ids.map (ord big) = oid.drop 5 := by
      have hparts : [e.nSubid, e.pfx, 0, 0] ++ (e.ids.map (ord big)).flatMap leBytes =
          [objidNSubid oid, objidPfx oid, 0, 0] ++ (oid.drop 5).flatMap leBytes := hoctets
      exact (flatMap_leBytes_inj (by simp; omega)).mp (append_inj hparts rfl).2
    rw [WireOid.meaning] at hmeaning
    split at hmeaning
    · -- all of them would have to be listed
      refine .inl (eq_nil_of_length_eq_zero ?_)
      rw [hmeaning] at hlength
      omega
    · next hpfx =>
        subst hmeaning
        refine .inr ⟨e.pfx.toUInt32, e.ids, rfl, ?_, ?_, map_ord_eq_self_iff.mp hids⟩
        · have hne : e.pfx.toNat ≠ 0 := fun h => hpfx (UInt8.toNat_inj.mp h)
          rw [UInt32.lt_iff_toNat_lt, UInt8.toNat_toUInt32]
          exact Nat.pos_of_ne_zero hne
        · rw [UInt32.lt_iff_toNat_lt, UInt8.toNat_toUInt32]
          exact e.pfx.toNat_lt
  · rintro (rfl | ⟨p, rest, rfl, hpos, hlt, hsame⟩)
    · exact ⟨{}, rfl, rfl⟩
    · have hle : p ≤ 255 := UInt32.le_iff_toNat_le.mpr (Nat.le_of_lt_succ hlt)
      have hp : p.toUInt8.toUInt32 = p := toUInt8_toUInt32_of_le hle
      have hpfx : p.toUInt8 ≠ 0 := by
        intro hzero
        rw [hzero] at hp
        exact absurd (hp ▸ hpos) (by decide)
      have hshort : rest.length < 256 := by
        simp only [length_cons, asn1OidMaxLen] at hlen
        omega
      refine ⟨⟨p.toUInt8, rest, hshort⟩, ?_, ?_⟩
      · rw [objidEnc, objidNSubid_cons, objidPfx_cons, WireOid.octets,
          map_ord_eq_self_iff.mpr hsame]
        rfl
      · rw [WireOid.meaning, if_neg hpfx, hp]

/-! ### Both ways -/

/-- A varbind that goes out with an object identifier as its value. -/
structure XVarBind.HasOid (vb : XVarBind) (oid : Oid) : Prop where
  type : vb.valType = asn1TagObjid.toUInt16
  value : vb.value = oid.flatMap leBytes
  valLen : vb.valLen = UInt32.ofNat (4 * oid.length)

/-- **Object identifiers in AgentX PDUs.** One that comes in is decoded to what is meant exactly
when it is null or compressed, and one that goes out as a name or a value means the same exactly
when it can be compressed. -/
theorem agentxObjid_conforms_iff (big : Bool) (oid : Oid) (hlen : oid.length ≤ 64) :
    (∀ e : WireOid, e.meaning = oid →
      (Parses (agentxValueDec asn1TagObjid) (e.octets big 0) (e.octets big 0) (objidElements oid) ↔
        oid = [] ∨ (e.pfx ≠ 0 ∧ ∀ id ∈ e.ids, ord big id = id))) ∧
    (∀ vb : XVarBind, vb.oid = oid → ∃ name, xVarBindEnc vb =
        leBytes16 vb.valType ++ [0, 0] ++ name ++ xValueEnc vb ∧
      (TakenFor big name oid ↔ Compressible big oid)) ∧
    ∀ vb : XVarBind, vb.HasOid oid → (TakenFor big (xValueEnc vb) oid ↔ Compressible big oid) := by
  refine ⟨?_, ?_, ?_⟩
  · rintro e rfl
    rw [WireOid.parses_iff big hlen, WireOid.oid_eq_meaning_iff]
  · rintro vb rfl
    exact ⟨objidEnc vb.oid, rfl, objidEnc_takenFor_iff big hlen⟩
  · rintro vb ⟨htype, hvalue, hvalLen⟩
    have hlayout : valueLayout vb.valType = .objid := by rw [htype]; rfl
    rw [xValueEnc_objid hlen hlayout hvalue hvalLen]
    exact objidEnc_takenFor_iff big hlen

theorem agentxObjid_conforms_mib2 :
    Compressible false [1, 3, 6, 1, 2, 1] ∧ TakenFor false
      (xValueEnc ⟨[], asn1TagObjid.toUInt16, 24, [1, 3, 6, 1, 2, 1].flatMap leBytes⟩)
      [1, 3, 6, 1, 2, 1] := by
  have hmib2 : Compressible false [1, 3, 6, 1, 2, 1] :=
    .inr ⟨2, [1], rfl, by decide, by decide, fun _ _ => rfl⟩
  refine ⟨hmib2, ?_⟩
  exact ((agentxObjid_conforms_iff false [1, 3, 6, 1, 2, 1] (by decide)).2.2 _ ⟨rfl, rfl, rfl⟩).mpr
    hmib2

/-- **`0.0` is lost both ways**: all of its sub-identifiers have to be listed, but it is decoded to
`1.3.6.1.0.0.0`, and what is emitted for it is the null identifier. -/
theorem zeroDotZero_lost :
    (∃ e : WireOid, e.meaning = [0, 0] ∧ e.oid false = [1, 3, 6, 1, 0, 0, 0] ∧
      ¬ Parses (agentxValueDec asn1TagObjid) (e.octets false 0) (e.octets false 0)
        (objidElements [0, 0])) ∧
    objidEnc [0, 0] = [0, 0, 0, 0] ∧ ¬ TakenFor false (objidEnc [0, 0]) [0, 0] := by
  refine ⟨⟨⟨0, [0, 0], by decide⟩, rfl, rfl, fun hparses => ?_⟩, rfl, fun htaken => ?_⟩
  · have heq := (WireOid.parses_iff false (e := ⟨0, [0, 0], by decide⟩) (by decide)).mp hparses
    exact absurd heq (by decide)
  · rcases (objidEnc_takenFor_iff false (by decide)).mp htaken with hnil | ⟨p, rest, heq, -⟩
    · cases hnil
    · cases heq

end SmithSnmp
