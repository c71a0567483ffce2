import SmithSnmp.Ber
import SmithSnmp.Lib.Base128

/-!
# Round Trips of the BER Codec

The decoders of `core/snmp_decoder.c` undo the encoders of `core/snmp_encoder.c`. All of
them shift digits into a 32-bit number: octets for integers and lengths, groups of seven
bits for sub-identifiers.

## Main results

* `berIntDec_berIntEnc`: every integer.
* `berLengthDec_berLengthEnc`: every length, whatever comes behind it.
* `berLength_selfDelimiting`: the octets of lengths delimit themselves.
* `berOidDec_berOidEnc`: every OID that `ber_oid_dec` can yield.
-/

namespace SmithSnmp

open List Lib

variable {value : Int32} {bs : List UInt8}

/-! ### Octets of a number -/

/-- Shifting an octet into a number. -/
theorem shl_or_toNat (v : UInt32) (b : UInt8) :
    ((v <<< 8) ||| b.toUInt32).toNat = (v.toNat * 256 + b.toNat) % 2 ^ 32 := by
  have hb : b.toNat < 2 ^ 8 := b.toNat_lt
  have hor := Nat.two_pow_add_eq_or_of_lt hb (v.toNat % 2 ^ 24)
  have hv : (v <<< 8).toNat = 2 ^ 8 * (v.toNat % 2 ^ 24) := by
    rw [UInt32.toNat_shiftLeft]
    simp only [UInt32.reduceToNat, Nat.reduceMod, Nat.shiftLeft_eq]
    omega
  rw [UInt32.toNat_or, UInt8.toNat_toUInt32, hv, ← hor]
  omega

/-- The octets of a number, most significant first, are shifted in to the number. -/
theorem shiftIn_beBytes (v : UInt32) : shiftIn 0 (beBytes v) = v := by
  have h := v.toNat_lt
  rw [← UInt32.toNat_inj]
  simp only [beBytes, leBytes, reverse_cons, reverse_nil, nil_append,
    cons_append, shiftIn, foldl_cons, foldl_nil, shl_or_toNat,
    UInt32.toNat_toUInt8, UInt32.toNat_shiftRight, UInt32.reduceToNat, Nat.reduceMod,
    Nat.shiftRight_eq_div_pow]
  omega

theorem shiftIn_append (v : UInt32) (bs cs : List UInt8) :
    shiftIn v (bs ++ cs) = shiftIn (shiftIn v bs) cs :=
  foldl_append

/-- Leading zeros do not count. -/
theorem shiftIn_replicate_zero (n : ℕ) (bs : List UInt8) :
    shiftIn 0 (List.replicate n 0 ++ bs) = shiftIn 0 bs := by
  rw [shiftIn_append]
  induction n with
  | zero => rfl
  | succ n ih => exact ih

/-- What `dropLead` drops. -/
theorem replicate_append_dropLead (fill : UInt8) (bs : List UInt8) :
    List.replicate (bs.length - (dropLead fill bs).length) fill ++ dropLead fill bs = bs := by
  induction bs with
  | nil => rfl
  | cons b bs ih =>
    cases bs with
    | nil => simp [dropLead]
    | cons c bs =>
      have hlen := (dropLead_length fill (cons_ne_nil c bs)).2
      rw [dropLead]
      split
      · next h =>
          rw [length_cons, Nat.succ_sub hlen, replicate_succ, cons_append, ih, h]
      · simp

/-- The octets that are left stand for the same number. -/
theorem shiftIn_dropLead_zero (v : UInt32) : shiftIn 0 (dropLead 0x00 (beBytes v)) = v := by
  have h := replicate_append_dropLead 0x00 (beBytes v)
  rw [← shiftIn_replicate_zero, h, shiftIn_beBytes]

/-- A leading zero can be skipped. -/
theorem shiftIn_drop_zero (bs : List UInt8) :
    shiftIn 0 (bs.drop (if bs.headD 0 = 0 then 1 else 0)) = shiftIn 0 bs := by
  cases bs with
  | nil => rfl
  | cons b bs =>
    by_cases h : b = 0
    · subst h
      exact (shiftIn_replicate_zero 1 bs).symm
    · simp [h]

/-! ### Integers -/

/-- The most significant octet of a negative number has its sign bit set. -/
theorem beBytes_sign (h : ¬0 ≤ value) : (beBytes value.toUInt32).headD 0 &&& 0x80 ≠ 0 := by
  have hneg : 2 ^ 31 ≤ value.toUInt32.toNat := by
    have hint : ¬(0 : ℤ) ≤ value.toInt := fun hc => h (Int32.le_iff_toInt_le.mpr hc)
    have hcond := BitVec.toInt_eq_toNat_cond value.toBitVec
    change value.toInt = _ at hcond
    change 2 ^ 31 ≤ value.toBitVec.toNat
    split at hcond <;> omega
  have hlt := value.toUInt32.toNat_lt
  rw [ne_eq, top_clear_iff]
  simp only [beBytes, leBytes, reverse_cons, reverse_nil, nil_append,
    cons_append, headD_cons, UInt32.toNat_toUInt8, UInt32.toNat_shiftRight,
    UInt32.reduceToNat, Nat.reduceMod, Nat.shiftRight_eq_div_pow]
  omega

/-- `ber_int_dec` of octets without the sign bit. -/
theorem berIntDec_of_unsigned (h : bs.headD 0 &&& 0x80 = 0) :
    berIntDec bs = some (shiftIn 0 bs).toInt32 := by
  rw [berIntDec, signRounds, if_pos h, Option.map_some, if_neg (not_not.mpr h), shiftIn_drop_zero]

/-- `ber_int_dec` of up to four octets with the sign bit. -/
theorem berIntDec_of_signed (h : bs.headD 0 &&& 0x80 ≠ 0) (hlen : bs.length ≤ 4) :
    berIntDec bs = some (shiftIn 0 (List.replicate (4 - bs.length) 0xff ++ bs)).toInt32 := by
  rw [berIntDec, signRounds, if_neg h, if_pos hlen, Option.map_some, if_pos h, shiftIn_append]

/-- The octets of an unsigned number do not have the sign bit. -/
theorem berUintEnc_sign (v : UInt32) : (berUintEnc v).headD 0 &&& 0x80 = 0 := by
  rw [berUintEnc]
  split
  · simp
  · next hsign => exact not_not.mp hsign

/-- The octets of an unsigned number are shifted in to the number. -/
theorem shiftIn_berUintEnc (v : UInt32) : shiftIn 0 (berUintEnc v) = v := by
  have hbs := shiftIn_dropLead_zero v
  rw [berUintEnc]
  split
  · exact (shiftIn_replicate_zero 1 _).trans hbs
  · exact hbs

theorem berIntEnc_of_nonneg (h : 0 ≤ value) : berIntEnc value = berUintEnc value.toUInt32 :=
  if_pos h

/-- The octets of a negative number have the sign bit, and they are all four of its octets when
they are filled up. -/
theorem berIntEnc_of_neg (h : ¬0 ≤ value) :
    (berIntEnc value).headD 0 &&& 0x80 ≠ 0 ∧
      List.replicate (4 - (berIntEnc value).length) 0xff ++ berIntEnc value =
        beBytes value.toUInt32 := by
  have hbs := replicate_append_dropLead 0xff (beBytes value.toUInt32)
  have hlen : (beBytes value.toUInt32).length = 4 := rfl
  rw [hlen] at hbs
  rw [berIntEnc, if_neg h]
  dsimp only
  split
  · next hsign =>
      -- an octet was dropped, since the first one has the sign bit
      have hlt : (dropLead 0xff (beBytes value.toUInt32)).length < 4 := by
        by_contra hge
        rw [Nat.sub_eq_zero_of_le (not_lt.mp hge), replicate_zero, nil_append] at hbs
        rw [hbs] at hsign
        exact beBytes_sign h hsign
      rw [show 4 - (dropLead 0xff (beBytes value.toUInt32)).length =
          4 - ((dropLead 0xff (beBytes value.toUInt32)).length + 1) + 1 by omega,
        replicate_succ', append_assoc] at hbs
      exact ⟨by rw [headD_cons]; decide, hbs⟩
  · next hsign => exact ⟨hsign, hbs⟩

/-- **Integers**: `ber_int_dec` undoes `ber_int_enc`. -/
theorem berIntDec_berIntEnc (value : Int32) : berIntDec (berIntEnc value) = some value := by
  by_cases h : 0 ≤ value
  · rw [berIntEnc_of_nonneg h, berIntDec_of_unsigned (berUintEnc_sign _), shiftIn_berUintEnc]
    simp
  · obtain ⟨hsign, hfill⟩ := berIntEnc_of_neg h
    have hlen : (berIntEnc value).length ≤ 4 := by
      have := congrArg List.length hfill
      simp only [length_append, length_replicate, show (beBytes value.toUInt32).length = 4
        from rfl] at this
      omega
    rw [berIntDec_of_signed hsign hlen, hfill, shiftIn_beBytes]
    simp

/-! ### Lengths -/

theorem toNat_lt_of_short {v : UInt32} (h : ¬127 < v) : v.toNat < 128 := by
  have := UInt32.lt_iff_toNat_lt.not.mp h
  simp only [UInt32.reduceToNat] at this
  omega

/-- The octet of a short length. -/
theorem dropLead_of_short {v : UInt32} (h : ¬127 < v) :
    dropLead 0x00 (beBytes v) = [v.toUInt8] := by
  have hlt := toNat_lt_of_short h
  have hzero : ∀ k : UInt32, 8 ≤ k.toNat % 32 → (v >>> k).toUInt8 = 0 := by
    intro k hk
    rw [← UInt8.toNat_inj, UInt32.toNat_toUInt8, UInt32.toNat_shiftRight,
      Nat.shiftRight_eq_div_pow, Nat.div_eq_of_lt]
    · rfl
    · calc v.toNat < 2 ^ 8 := by omega
        _ ≤ 2 ^ (k.toNat % 32) := Nat.pow_le_pow_right (by decide) hk
  simp [beBytes, leBytes, dropLead, hzero 8 (by decide), hzero 16 (by decide),
    hzero 24 (by decide)]

/-- **Lengths**: `ber_length_dec` undoes `ber_length_enc`, whatever comes behind. -/
theorem berLengthDec_berLengthEnc (value : UInt32) (rest : List UInt8) :
    berLengthDec (berLengthEnc value ++ rest) = some (value, berLengthEncTry value) := by
  have hlen := dropLead_length 0x00 (beBytes_ne_nil value)
  have hfour : (beBytes value).length = 4 := rfl
  have hshift := shiftIn_dropLead_zero value
  rw [berLengthEnc, berLengthEncTry]
  split
  · generalize dropLead 0x00 (beBytes value) = bs at hlen hshift ⊢
    have hfirst : ∀ n ≤ 4, (0x80 ||| UInt8.ofNat n) &&& 0x80 ≠ 0 ∧
        ((0x80 ||| UInt8.ofNat n) &&& 0x7f).toNat = n := by decide
    obtain ⟨hcont, hcount⟩ := hfirst bs.length (by omega)
    rw [cons_append, berLengthDec, if_pos hcont]
    dsimp only
    rw [hcount, if_neg (by simp), take_left, hshift, Nat.add_comm]
  · next h =>
      have hlt := toNat_lt_of_short h
      have hclear : value.toUInt8 &&& 0x80 = 0 := by
        rw [top_clear_iff, UInt32.toNat_toUInt8]
        exact (Nat.mod_le _ _).trans_lt hlt
      have hback : value.toUInt8.toUInt32 = value := by
        rw [← UInt32.toNat_inj, UInt8.toNat_toUInt32, UInt32.toNat_toUInt8]
        omega
      rw [dropLead_of_short h, cons_append, berLengthDec,
        if_neg (not_not.mpr hclear), hback]
      rfl

/-- **Self-delimiting lengths.** From the octets of a length and any others behind, `ber_length_dec`
takes the length and exactly its octets, as many as `ber_length_enc_try` says; so the length and
what is behind are determined. -/
theorem berLength_selfDelimiting (n : UInt32) (r : List UInt8) :
    berLengthDec (berLengthEnc n ++ r) = some (n, (berLengthEnc n).length) ∧
      (berLengthEnc n).length = berLengthEncTry n ∧
      ∀ m s, berLengthEnc n ++ r = berLengthEnc m ++ s ↔ n = m ∧ r = s := by
  refine ⟨?_, berLengthEnc_length n, fun m s => ⟨fun h => ?_, ?_⟩⟩
  · rw [berLengthDec_berLengthEnc, berLengthEnc_length]
  · have hdec := berLengthDec_berLengthEnc n r
    rw [h, berLengthDec_berLengthEnc] at hdec
    obtain rfl : m = n := (Prod.mk.inj (Option.some.inj hdec)).1
    exact ⟨rfl, append_cancel_left h⟩
  · rintro ⟨rfl, rfl⟩
    rfl

/-! ### Object identifiers -/

/-- Shifting a digit of a sub-identifier back in. -/
theorem shl_or_digit (id : UInt32) (d : UInt8) (h : d.toNat = id.toNat % 128) :
    ((id / 128) <<< 7) ||| d.toUInt32 = id := by
  have hlt : id.toNat < 2 ^ 32 := id.toNat_lt
  have hd : d.toNat < 2 ^ 7 := by omega
  have hor := Nat.two_pow_add_eq_or_of_lt hd (id.toNat / 128)
  have hshift : ((id / 128) <<< 7).toNat = 2 ^ 7 * (id.toNat / 128) := by
    rw [UInt32.toNat_shiftLeft, UInt32.toNat_div]
    simp only [UInt32.reduceToNat, Nat.reduceMod, Nat.shiftLeft_eq]
    omega
  rw [← UInt32.toNat_inj, UInt32.toNat_or, UInt8.toNat_toUInt32, hshift, ← hor, h]
  omega

theorem digit_bits (id : UInt32) :
    let d := ((id &&& 0x7f) ||| 0x80).toUInt8
    (d &&& 0x80 ≠ 0 ∧ (d &&& 0x7f).toNat = id.toNat % 128) ∧
      (d &&& 0x7f) &&& 0x80 = 0 ∧ ((d &&& 0x7f) &&& 0x7f).toNat = id.toNat % 128 := by
  have hbits : ∀ b : UInt8, let d := b &&& 0x7f ||| 0x80
      (d &&& 0x80 ≠ 0 ∧ (d &&& 0x7f).toNat = b.toNat % 128) ∧
        (d &&& 0x7f) &&& 0x80 = 0 ∧ ((d &&& 0x7f) &&& 0x7f).toNat = b.toNat % 128 :=
    forall_octet (by decide +kernel)
  have hlow : id.toUInt8.toNat % 128 = id.toNat % 128 := by
    rw [UInt32.toNat_toUInt8]
    omega
  rw [← hlow, UInt32.toUInt8_or, UInt32.toUInt8_and]
  exact hbits id.toUInt8

/-- The digits of a number, most significant first and all with the continuation bit, are
shifted in to the number. -/
theorem berOidDecLoop_digits (fuel : ℕ) (id : UInt32) (h : id.toNat < 128 ^ fuel)
    (rest : List UInt8) :
    berOidDecLoop 0 ((subIdDigits fuel id).reverse ++ rest) = berOidDecLoop id rest := by
  induction fuel generalizing id rest with
  | zero =>
    obtain rfl : id = 0 := by
      rw [← UInt32.toNat_inj]
      simpa using h
    rfl
  | succ fuel ih =>
    obtain ⟨⟨hcont, hlow⟩, -⟩ := digit_bits id
    have hdiv : (id / 128).toNat < 128 ^ fuel := by
      rw [UInt32.toNat_div]
      exact Nat.div_lt_of_lt_mul (by rw [Nat.mul_comm]; exact h)
    have htail : berOidDecLoop 0 ((if id / 128 = 0 then [] else subIdDigits fuel (id / 128)).reverse
        ++ (((id &&& 0x7f) ||| 0x80).toUInt8 :: rest)) =
          berOidDecLoop (id / 128) (((id &&& 0x7f) ||| 0x80).toUInt8 :: rest) := by
      split
      · next hzero => rw [hzero, reverse_nil, nil_append]
      · exact ih _ hdiv _
    rw [subIdDigits, reverse_cons, append_assoc, singleton_append, htail,
      berOidDecLoop]
    simp only [hcont, if_false]
    rw [shl_or_digit id _ hlow]

/-- A sub-identifier is decoded where its octets stand. -/
theorem berOidDecLoop_subIdEnc (id : UInt32) (rest : List UInt8) :
    berOidDecLoop 0 (subIdEnc id ++ rest) = id :: berOidDecLoop 0 rest := by
  obtain ⟨-, hlast, hlow⟩ := digit_bits id
  have hlt : id.toNat < 2 ^ 32 := id.toNat_lt
  have hdiv : (id / 128).toNat < 128 ^ 4 := by
    rw [UInt32.toNat_div]
    simp only [UInt32.reduceToNat]
    omega
  have htail : ∀ bs, berOidDecLoop 0
      ((if id / 128 = 0 then [] else subIdDigits 4 (id / 128)).reverse ++ bs) =
        berOidDecLoop (id / 128) bs := by
    intro bs
    split
    · next hzero => rw [hzero, reverse_nil, nil_append]
    · exact berOidDecLoop_digits 4 _ hdiv bs
  rw [subIdEnc, subIdDigits]
  dsimp only
  rw [reverse_cons, append_assoc, singleton_append, htail, berOidDecLoop]
  simp only [hlast, if_true]
  rw [shl_or_digit id _ hlow]

theorem berOidDecLoop_flatMap (ids : Oid) : berOidDecLoop 0 (ids.flatMap subIdEnc) = ids := by
  induction ids with
  | nil => rfl
  | cons id ids ih => rw [flatMap_cons, berOidDecLoop_subIdEnc, ih]

/-- The decoder yields a sub-identifier for every octet without the continuation bit. -/
theorem berOidDecLoop_length (id : UInt32) (bs : List UInt8) :
    (berOidDecLoop id bs).length = bs.countP fun b => b &&& 0x80 = 0 := by
  induction bs generalizing id with
  | nil => rfl
  | cons b bs ih =>
    rw [berOidDecLoop, countP_cons]
    split
    · next h => simp [ih, h]
    · next h => simp [ih, h]

/-- `ber_oid_dec_try` gives the number of sub-identifiers that `ber_oid_dec` yields. -/
theorem berOidDecTry_eq (h : bs ≠ []) : berOidDecTry bs = (berOidDec bs).length := by
  cases bs with
  | nil => exact absurd rfl h
  | cons b bs =>
    rw [berOidDec, berOidDecTry, length_cons, length_cons, berOidDecLoop_length,
      drop_succ_cons, drop_zero]
    omega

/-- The first octet of an OID is encoded as it was received. -/
theorem firstOctet_recoded (b : UInt8) :
    ((b / 40).toUInt32 * 40 + (b % 40).toUInt32).toUInt8 = b := by
  have h : ∀ b : UInt8, ((b / 40).toUInt32 * 40 + (b % 40).toUInt32).toUInt8 = b :=
    forall_octet (by decide +kernel)
  exact h b

/-- **OIDs**: `ber_oid_dec` undoes `ber_oid_enc` on what it can yield. -/
theorem berOidDec_berOidEnc {oid : Oid} (h : ∃ bs, bs ≠ [] ∧ berOidDec bs = oid) :
    berOidDec (berOidEnc oid) = oid := by
  obtain ⟨bs, hne, rfl⟩ := h
  cases bs with
  | nil => exact absurd rfl hne
  | cons b bs =>
    rw [berOidDec, berOidEnc, berOidDec, firstOctet_recoded, berOidDecLoop_flatMap]

end SmithSnmp
