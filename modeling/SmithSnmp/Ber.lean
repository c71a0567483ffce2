import Mathlib.Algebra.Order.BigOperators.Group.List
import SmithSnmp.Asn1

/-!
# The BER Codec

The functions of `core/snmp_encoder.c` (little-endian build) and `core/snmp_decoder.c`.
An encoder returns the bytes it writes; a decoder takes the content octets as a list, and
`berLengthDec`, which does not know how many bytes there are, takes the whole rest of the
buffer and fails where the source would read behind it.
-/

namespace SmithSnmp

open List Option

/-! ### Encoder -/

/-- The loops `while (i > 0 && a.buf[i] == fill) i--` over the bytes of a word from the
most significant one: leading fill bytes go, but the last byte stays. -/
def dropLead (fill : UInt8) : List UInt8 → List UInt8
  | b :: c :: bs => if b = fill then dropLead fill (c :: bs) else b :: c :: bs
  | bs => bs

/-- The bytes of a word, most significant first. -/
def beBytes (v : UInt32) : List UInt8 := (leBytes v).reverse

/-- `ber_int_enc` -/
def berIntEnc (value : Int32) : List UInt8 :=
  if 0 ≤ value then
    let bs := dropLead 0x00 (beBytes value.toUInt32)
    if bs.headD 0 &&& 0x80 ≠ 0 then 0x00 :: bs else bs
  else
    let bs := dropLead 0xff (beBytes value.toUInt32)
    if bs.headD 0 &&& 0x80 = 0 then 0xff :: bs else bs

/-- `ber_int_enc_try` -/
def berIntEncTry (value : Int32) : ℕ :=
  if 0 ≤ value then
    let bs := dropLead 0x00 (beBytes value.toUInt32)
    (if bs.headD 0 &&& 0x80 ≠ 0 then 1 else 0) + bs.length
  else
    let bs := dropLead 0xff (beBytes value.toUInt32)
    (if bs.headD 0 &&& 0x80 = 0 then 1 else 0) + bs.length

/-- `ber_uint_enc` -/
def berUintEnc (value : UInt32) : List UInt8 :=
  let bs := dropLead 0x00 (beBytes value)
  if bs.headD 0 &&& 0x80 ≠ 0 then 0x00 :: bs else bs

/-- `ber_uint_enc_try` -/
def berUintEncTry (value : UInt32) : ℕ :=
  let bs := dropLead 0x00 (beBytes value)
  (if bs.headD 0 &&& 0x80 ≠ 0 then 1 else 0) + bs.length

/-- The first inner loop of `ber_oid_enc`: the base-128 digits of a sub-identifier into
`tmp`, least significant first, each with the continuation bit. A 32-bit number has five
digits at most. -/
def subIdDigits : ℕ → UInt32 → List UInt8
  | 0, _ => []
  | fuel + 1, id =>
    ((id &&& 0x7f) ||| 0x80).toUInt8 ::
      if id / 128 = 0 then [] else subIdDigits fuel (id / 128)

/-- The octets of one sub-identifier: `tmp` from its end, after `tmp[0] &= 0x7f`. -/
def subIdEnc (id : UInt32) : List UInt8 :=
  match subIdDigits 5 id with
  | [] => []
  | d :: ds => ((d &&& 0x7f) :: ds).reverse

/-- `ber_oid_enc` -/
def berOidEnc : Oid → List UInt8
  | [] => []
  | [x] => [x.toUInt8]
  | x :: y :: rest => (x * 40 + y).toUInt8 :: rest.flatMap subIdEnc

/-- `ber_oid_enc_try`: both of its counters are `uint8_t`, so the size is taken modulo
256, and with more than 255 sub-identifiers the loop never ends (`none`). -/
def berOidEncTry (oid : Oid) : Option ℕ :=
  if oid.length < 2 then some oid.length
  else if oid.length > 255 then none
  else some ((1 + ((oid.drop 2).map fun id => (subIdDigits 5 id).length).sum) % 256)

/-- The encoder runs for ever exactly on OIDs of more than 255 sub-identifiers. -/
theorem berOidEncTry_eq_none_iff (oid : Oid) : berOidEncTry oid = none ↔ 255 < oid.length := by
  rw [berOidEncTry]
  by_cases hshort : oid.length < 2
  · simp only [hshort, if_true, reduceCtorEq, false_iff]
    omega
  · by_cases hlong : 255 < oid.length <;> simp [hshort, hlong]

/-- `ber_value_enc` on the memory of a union; `len` is the number of elements. -/
def berValueEnc (mem : List UInt8) (len : ℕ) (type : UInt8) : List UInt8 :=
  if type = asn1TagInt ∨ type = asn1TagCnt then berIntEnc (peekWord mem).toInt32
  else if type = asn1TagGau ∨ type = asn1TagTimeticks then berUintEnc (peekWord mem)
  else if type = asn1TagObjid then berOidEnc (peekOid mem len)
  else if type = asn1TagOctstr ∨ type = asn1TagIpaddr then peekBytes mem len
  else []

/-- `ber_value_enc_try` on the memory of a union. -/
def berValueEncTry (mem : List UInt8) (len : ℕ) (type : UInt8) : Option ℕ :=
  if type = asn1TagInt ∨ type = asn1TagCnt then some (berIntEncTry (peekWord mem).toInt32)
  else if type = asn1TagGau ∨ type = asn1TagTimeticks then some (berUintEncTry (peekWord mem))
  else if type = asn1TagObjid then berOidEncTry (peekOid mem len)
  else if type = asn1TagOctstr ∨ type = asn1TagIpaddr then some len
  else some 0

/-- `ber_length_enc` -/
def berLengthEnc (value : UInt32) : List UInt8 :=
  let bs := dropLead 0x00 (beBytes value)
  if 127 < value then (0x80 ||| UInt8.ofNat bs.length) :: bs else bs

/-- `ber_length_enc_try` -/
def berLengthEncTry (value : UInt32) : ℕ :=
  let bs := dropLead 0x00 (beBytes value)
  (if 127 < value then 1 else 0) + bs.length

/-- `ber_int_enc_try` gives the number of octets that `ber_int_enc` writes. -/
theorem berIntEnc_length (value : Int32) : (berIntEnc value).length = berIntEncTry value := by
  simp only [berIntEnc, berIntEncTry]
  split
  · split <;> simp [Nat.add_comm]
  · split <;> simp [Nat.add_comm]

/-- `ber_uint_enc_try` gives the number of octets that `ber_uint_enc` writes. -/
theorem berUintEnc_length (v : UInt32) : (berUintEnc v).length = berUintEncTry v := by
  simp only [berUintEnc, berUintEncTry]
  split <;> simp [Nat.add_comm]

theorem beBytes_ne_nil (v : UInt32) : beBytes v ≠ [] := by simp [beBytes, leBytes]

/-- Of some octets at least one is left. -/
theorem dropLead_length (fill : UInt8) {bs : List UInt8} (h : bs ≠ []) :
    1 ≤ (dropLead fill bs).length ∧ (dropLead fill bs).length ≤ bs.length := by
  induction bs with
  | nil => exact absurd rfl h
  | cons b bs ih =>
    cases bs with
    | nil => simp [dropLead]
    | cons c bs =>
      have := ih (by simp)
      rw [dropLead]
      split
      · rw [length_cons]
        omega
      · simp

/-- A length takes one to five octets. -/
theorem berLengthEncTry_bounds (value : UInt32) :
    1 ≤ berLengthEncTry value ∧ berLengthEncTry value ≤ 5 := by
  have h := dropLead_length 0x00 (beBytes_ne_nil value)
  have hlen : (beBytes value).length = 4 := rfl
  rw [berLengthEncTry]
  split <;> omega

/-- `ber_length_enc_try` gives the number of octets that `ber_length_enc` writes. -/
@[simp] theorem berLengthEnc_length (value : UInt32) :
    (berLengthEnc value).length = berLengthEncTry value := by
  simp only [berLengthEnc, berLengthEncTry]
  split <;> simp [Nat.add_comm]

theorem subIdEnc_length (id : UInt32) : (subIdEnc id).length = (subIdDigits 5 id).length := by
  rw [subIdEnc]
  split
  · next h => rw [h]
  · next h => rw [h, length_reverse, length_cons, length_cons]

theorem subIdDigits_length_le (fuel : ℕ) (id : UInt32) : (subIdDigits fuel id).length ≤ fuel := by
  induction fuel generalizing id with
  | zero => simp [subIdDigits]
  | succ fuel ih =>
    rw [subIdDigits]
    split
    · simp
    · simpa using ih (id / 128)

/-- The sub-identifiers behind the first two take the octets that are counted for them. -/
theorem flatMap_subIdEnc_length (ids : Oid) : (ids.flatMap subIdEnc).length =
    (ids.map fun id => (subIdDigits 5 id).length).sum := by
  simp only [length_flatMap, subIdEnc_length]

/-- `ber_oid_enc_try` gives the number of octets that `ber_oid_enc` writes, modulo 256. -/
theorem berOidEncTry_eq {oid : Oid} {n : ℕ} (h : berOidEncTry oid = some n) :
    n = (berOidEnc oid).length % 256 := by
  rw [berOidEncTry] at h
  match oid with
  | [] => simpa [berOidEnc] using h.symm
  | [x] => simpa [berOidEnc] using h.symm
  | x :: y :: rest =>
    rw [if_neg (by simp)] at h
    split at h
    · cases h
    · rw [← some.inj h, berOidEnc, length_cons, flatMap_subIdEnc_length,
        drop_succ_cons, drop_succ_cons, drop_zero, Nat.add_comm]

/-- `ber_value_enc_try` gives the number of octets that `ber_value_enc` writes, for an OID modulo
256. -/
theorem berValueEncTry_eq {mem : List UInt8} {len n : ℕ} {type : UInt8}
    (h : berValueEncTry mem len type = some n) :
    n = if type = asn1TagObjid then (berValueEnc mem len type).length % 256
      else (berValueEnc mem len type).length := by
  rw [berValueEncTry] at h
  rw [berValueEnc]
  by_cases hint : type = asn1TagInt ∨ type = asn1TagCnt
  · have hobjid : type ≠ asn1TagObjid := by rintro rfl; exact absurd hint (by decide)
    rw [if_pos hint] at h ⊢
    rw [if_neg hobjid, ← some.inj h, berIntEnc_length]
  rw [if_neg hint] at h ⊢
  by_cases huint : type = asn1TagGau ∨ type = asn1TagTimeticks
  · have hobjid : type ≠ asn1TagObjid := by rintro rfl; exact absurd huint (by decide)
    rw [if_pos huint] at h ⊢
    rw [if_neg hobjid, ← some.inj h, berUintEnc_length]
  rw [if_neg huint] at h ⊢
  by_cases hobjid : type = asn1TagObjid
  · rw [if_pos hobjid] at h ⊢
    rw [if_pos hobjid]
    exact berOidEncTry_eq h
  rw [if_neg hobjid] at h ⊢
  rw [if_neg hobjid]
  split at h
  · next hstr => rw [if_pos hstr, peekBytes_length, ← some.inj h]
  · next hstr => rw [if_neg hstr, ← some.inj h, length_nil]

/-- Where `ber_oid_enc_try` ends, the encoding is short. -/
theorem berOidEnc_length_le {oid : Oid} (h : (berOidEncTry oid).isSome) :
    (berOidEnc oid).length ≤ 1 + 5 * 255 := by
  match oid with
  | [] => simp [berOidEnc]
  | [x] => simp [berOidEnc]
  | x :: y :: rest =>
    have hlen : rest.length ≤ 255 := by
      rw [berOidEncTry, if_neg (by simp)] at h
      split at h
      · cases h
      · next hle =>
          simp only [length_cons] at hle
          omega
    have hsum : (rest.map fun id => (subIdDigits 5 id).length).sum ≤ rest.length * 5 := by
      have := sum_le_card_nsmul (rest.map fun id => (subIdDigits 5 id).length) 5 (by
        intro n hn
        obtain ⟨id, -, rfl⟩ := mem_map.mp hn
        exact subIdDigits_length_le 5 id)
      simpa using this
    rw [berOidEnc, length_cons, flatMap_subIdEnc_length]
    omega

/-! ### Decoder -/

/-- The loops `*value = (*value << 8) | buf[i++]`. -/
def shiftIn (v : UInt32) (bs : List UInt8) : UInt32 :=
  bs.foldl (fun v b => (v <<< 8) ||| b.toUInt32) v

/-- The rounds of the loop `j < sizeof(int) - len` that fills a negative number with ones. The
difference is one of `size_t`: for more than four octets it wraps around, and `j`, which is an
`int`, never gets there. -/
def signRounds (first : UInt8) (len : ℕ) : Option ℕ :=
  if first &&& 0x80 = 0 then some 0
  else if len ≤ 4 then some (4 - len)
  else none

/-- `ber_int_dec` on a non-empty content, `none` when the sign filling does not end. -/
def berIntDec (bs : List UInt8) : Option Int32 :=
  (signRounds (bs.headD 0) bs.length).map fun rounds =>
    if bs.headD 0 &&& 0x80 ≠ 0 then
      (shiftIn (shiftIn 0 (List.replicate rounds 0xff)) bs).toInt32
    else (shiftIn 0 (bs.drop (if bs.headD 0 = 0 then 1 else 0))).toInt32

/-- `ber_uint_dec` on a non-empty content. -/
def berUintDec (bs : List UInt8) : UInt32 :=
  shiftIn 0 (bs.drop (if bs.headD 0 = 0 then 1 else 0))

/-- The loop of `ber_oid_dec`, with the number `id` collected so far. -/
def berOidDecLoop (id : UInt32) : List UInt8 → Oid
  | [] => []
  | b :: bs =>
    let id' := (id <<< 7) ||| (b &&& 0x7f).toUInt32
    if b &&& 0x80 = 0 then id' :: berOidDecLoop 0 bs else berOidDecLoop id' bs

/-- `ber_oid_dec` on a non-empty content. -/
def berOidDec : List UInt8 → Oid
  | [] => []
  | b :: bs => (b / 40).toUInt32 :: (b % 40).toUInt32 :: berOidDecLoop 0 bs

/-- `ber_oid_dec_try` on a non-empty content. -/
def berOidDecTry (bs : List UInt8) : ℕ :=
  2 + (bs.drop 1).countP fun b => b &&& 0x80 = 0

/-- `ber_value_dec`: the returned number of elements and the bytes written to the value, `none`
when it does not return. -/
def berValueDec (bs : List UInt8) (type : UInt8) : Option (ℕ × List UInt8) :=
  if bs.length = 0 then some (0, [])
  else if type = asn1TagInt ∨ type = asn1TagCnt then
    (berIntDec bs).map fun v => (1, leBytes v.toUInt32)
  else if type = asn1TagGau ∨ type = asn1TagTimeticks then some (1, leBytes (berUintDec bs))
  else if type = asn1TagObjid then some ((berOidDec bs).length, (berOidDec bs).flatMap leBytes)
  else if type = asn1TagOctstr ∨ type = asn1TagIpaddr then some (bs.length, bs)
  else some (0, [])

/-- The contents on which the sign filling does not end. -/
def RunsAway (bs : List UInt8) : Prop := bs.headD 0 &&& 0x80 ≠ 0 ∧ 4 < bs.length

instance decidableRunsAway (bs : List UInt8) : Decidable (RunsAway bs) :=
  inferInstanceAs (Decidable (_ ∧ _))

theorem signRounds_eq_none_iff {first : UInt8} {len : ℕ} :
    signRounds first len = none ↔ first &&& 0x80 ≠ 0 ∧ 4 < len := by
  rw [signRounds]
  split
  · next h => simp [h]
  · next h => split <;> simp [h] <;> omega

theorem berIntDec_eq_none_iff (bs : List UInt8) : berIntDec bs = none ↔ RunsAway bs := by
  rw [berIntDec, map_eq_none_iff, signRounds_eq_none_iff, RunsAway]

/-- `ber_value_dec` returns for all values but such integers. -/
theorem berValueDec_eq_none_iff (bs : List UInt8) (type : UInt8) :
    berValueDec bs type = none ↔ (type = asn1TagInt ∨ type = asn1TagCnt) ∧ RunsAway bs := by
  rw [berValueDec]
  split
  · next h => simp [RunsAway, h]
  · split
    · next h => simp [h, berIntDec_eq_none_iff]
    · next h =>
        refine iff_of_false ?_ fun hrun => h hrun.1
        split <;> try split
        all_goals try split
        all_goals simp

/-- `ber_length_dec` at the start of the rest of a buffer: the length, and the number of
octets it takes. `none` is a read behind the buffer. -/
def berLengthDec : List UInt8 → Option (UInt32 × ℕ)
  | [] => none
  | b :: bs =>
    if b &&& 0x80 ≠ 0 then
      let k := (b &&& 0x7f).toNat
      if bs.length < k then none else some (shiftIn 0 (bs.take k), k + 1)
    else some (b.toUInt32, 1)

end SmithSnmp
