import Mathlib.Data.Nat.Digits.Lemmas
import SmithSnmp.BerCodec

/-!
# What BER Contents Mean

The values that the contents of varbinds stand for, without any bound on their size: an integer in
two's complement, an object identifier as its sub-identifiers to the base 128, and a string as its
octets. The first two sub-identifiers of an object identifier are one number in its content.

The codec of the agent has 32 bits for a number. `berIntDec_of_meaning` and `berUintDec_of_meaning`
say what it keeps of an integer.

## Main results

* `berInteger_berIntEnc`, `berInteger_berUintEnc`: the encoders write the number they are given.
* `berInteger_recoded_iff`, `berInteger_recoded_unsigned_iff`: the integers that survive decoding
  and encoding.
-/

namespace SmithSnmp

open List Lib Option

variable {bs : List UInt8} {v : ℤ}

/-! ### Octets as a number -/

/-- The number that octets stand for, most significant first. -/
def octetsNat (bs : List UInt8) : ℕ := Nat.ofDigits 256 (bs.map UInt8.toNat).reverse

/-- The number of octets in two parts. -/
theorem octetsNat_append (bs cs : List UInt8) :
    octetsNat (bs ++ cs) = octetsNat bs * 256 ^ cs.length + octetsNat cs := by
  rw [octetsNat, map_append, reverse_append, Nat.ofDigits_append, length_reverse,
    length_map, Nat.add_comm, Nat.mul_comm]
  rfl

/-- The first octet has the highest weight. -/
theorem octetsNat_cons (b : UInt8) (bs : List UInt8) :
    octetsNat (b :: bs) = b.toNat * 256 ^ bs.length + octetsNat bs := by
  have hone : octetsNat [b] = b.toNat := by simp [octetsNat]
  rw [← hone, ← octetsNat_append]
  rfl

/-- A number of so many octets is below their range. -/
theorem octetsNat_lt (bs : List UInt8) : octetsNat bs < 256 ^ bs.length := by
  have h := Nat.ofDigits_lt_base_pow_length (b := 256) (l := (bs.map UInt8.toNat).reverse)
    (by decide) (by
      intro d hd
      obtain ⟨b, -, rfl⟩ := mem_map.mp (mem_reverse.mp hd)
      exact b.toNat_lt)
  rwa [length_reverse, length_map] at h

/-- Leading zeros do not count. -/
theorem octetsNat_zero_cons (bs : List UInt8) : octetsNat (0 :: bs) = octetsNat bs := by
  rw [octetsNat_cons]
  simp

/-- Octets with all bits set. -/
theorem octetsNat_replicate_ones (n : ℕ) : octetsNat (List.replicate n 0xff) + 1 = 256 ^ n := by
  induction n with
  | zero => rfl
  | succ n ih =>
    rw [replicate_succ, octetsNat_cons, length_replicate, Nat.add_assoc, ih, pow_succ]
    simp only [UInt8.reduceToNat]
    omega

/-- Octets that are filled up with set bits. -/
theorem octetsNat_filled (n : ℕ) (bs : List UInt8) :
    (octetsNat (List.replicate n 0xff ++ bs) : ℤ) =
      octetsNat bs - 256 ^ bs.length + 256 ^ (n + bs.length) := by
  have hones : (octetsNat (List.replicate n 0xff) : ℤ) + 1 = 256 ^ n := by
    exact_mod_cast octetsNat_replicate_ones n
  rw [octetsNat_append, pow_add, ← hones]
  push_cast
  ring

/-- The loops shift in the number modulo `2 ^ 32`. -/
theorem shiftIn_toNat (v : UInt32) (bs : List UInt8) :
    (shiftIn v bs).toNat = (v.toNat * 256 ^ bs.length + octetsNat bs) % 2 ^ 32 := by
  induction bs generalizing v with
  | nil =>
    simp [shiftIn, octetsNat]
  | cons b bs ih =>
    have hstep : shiftIn v (b :: bs) = shiftIn ((v <<< 8) ||| b.toUInt32) bs := rfl
    have hmod : (v.toNat * 256 + b.toNat) % 2 ^ 32 ≡ v.toNat * 256 + b.toNat [MOD 2 ^ 32] :=
      Nat.mod_modEq _ _
    rw [hstep, ih, shl_or_toNat, octetsNat_cons, length_cons]
    refine ((hmod.mul_right _).add_right _).trans ?_
    rw [Nat.ModEq]
    congr 1
    ring

/-- A number is as many octets as it takes. -/
theorem shiftIn_zero_toNat (h : bs.length ≤ 4) : (shiftIn 0 bs).toNat = octetsNat bs := by
  have hlt : octetsNat bs < 2 ^ 32 :=
    (octetsNat_lt bs).trans_le (Nat.pow_le_pow_right (by decide) h)
  rw [shiftIn_toNat, UInt32.toNat_zero, Nat.zero_mul, Nat.zero_add, Nat.mod_eq_of_lt hlt]

/-- Big-endian octets mean their number. -/
theorem octetsNat_beBytes (v : UInt32) : octetsNat (beBytes v) = v.toNat := by
  rw [← shiftIn_zero_toNat (show (beBytes v).length ≤ 4 from Nat.le_refl 4), shiftIn_beBytes]

/-! ### Integers -/

/-- The integer that a content stands for, in two's complement. -/
def berInteger (bs : List UInt8) : Option ℤ :=
  if bs = [] then none
  else some (octetsNat bs - if bs.headD 0 &&& 0x80 ≠ 0 then 256 ^ bs.length else 0)

/-- Without a sign bit an INTEGER is the number of its octets. -/
theorem berInteger_of_unsigned (hne : bs ≠ []) (h : bs.headD 0 &&& 0x80 = 0) :
    berInteger bs = some (octetsNat bs : ℤ) := by
  rw [berInteger, if_neg hne, if_neg (not_not.mpr h), sub_zero]

/-- With a sign bit the range is taken off. -/
theorem berInteger_of_signed (hne : bs ≠ []) (h : bs.headD 0 &&& 0x80 ≠ 0) :
    berInteger bs = some ((octetsNat bs : ℤ) - 256 ^ bs.length) := by
  rw [berInteger, if_neg hne, if_pos h]

/-- No octets are no INTEGER. -/
theorem ne_nil_of_berInteger (h : berInteger bs = some v) : bs ≠ [] := by
  rintro rfl
  cases h

/-- A 32-bit number that is congruent to an integer, taken as a signed one. -/
theorem toInt_toInt32_of_modEq {x : UInt32} (h : (x.toNat : ℤ) ≡ v [ZMOD 2 ^ 32]) :
    x.toInt32.toInt = v.bmod (2 ^ 32) := by
  have hx : x.toInt32.toInt = (x.toNat : ℤ).bmod (2 ^ 32) := x.toBitVec.toInt_eq_toNat_bmod
  rw [hx, ← Int.emod_bmod, ← Int.emod_bmod (x := v)]
  exact congrArg (Int.bmod · (2 ^ 32)) h

/-- `ber_int_dec` keeps an integer modulo `2 ^ 32`, if it returns. -/
theorem berIntDec_of_meaning {x : Int32} (h : berInteger bs = some v)
    (hdec : berIntDec bs = some x) :
    x.toInt = v.bmod (2 ^ 32) := by
  have hne := ne_nil_of_berInteger h
  have hshift : ∀ cs : List UInt8, ((shiftIn 0 cs).toNat : ℤ) ≡ octetsNat cs [ZMOD 2 ^ 32] := by
    intro cs
    rw [shiftIn_toNat, UInt32.toNat_zero, Nat.zero_mul, Nat.zero_add, Int.natCast_mod]
    exact Int.mod_modEq _ _
  by_cases hsign : bs.headD 0 &&& 0x80 = 0
  · rw [berInteger_of_unsigned hne hsign] at h
    rw [berIntDec_of_unsigned hsign] at hdec
    rw [← some.inj hdec, ← some.inj h]
    exact toInt_toInt32_of_modEq (hshift bs)
  · rw [berInteger_of_signed hne hsign] at h
    have hlen : bs.length ≤ 4 := by
      by_contra hlong
      rw [(berIntDec_eq_none_iff bs).mpr ⟨hsign, not_le.mp hlong⟩] at hdec
      cases hdec
    rw [berIntDec_of_signed hsign hlen] at hdec
    rw [← some.inj hdec, ← some.inj h]
    refine toInt_toInt32_of_modEq ((hshift _).trans ?_)
    -- the filling and the sign make up for a power of 256 that is out of reach
    have hdvd : (2 : ℤ) ^ 32 ∣ 256 ^ (4 - bs.length + bs.length) := by
      rw [Nat.sub_add_cancel hlen]
      norm_num
    rw [octetsNat_filled]
    exact (Int.modEq_iff_dvd.mpr (by simpa using hdvd)).symm

/-- The octets of an unsigned number stand for it. -/
theorem berInteger_berUintEnc (v : UInt32) : berInteger (berUintEnc v) = some (v.toNat : ℤ) := by
  have hlen := dropLead_length 0x00 (beBytes_ne_nil v)
  have hfour : (beBytes v).length = 4 := rfl
  have hne : berUintEnc v ≠ [] := by
    rw [berUintEnc]
    split
    · simp
    · exact ne_nil_of_length_pos hlen.1
  have hnat : octetsNat (berUintEnc v) = v.toNat := by
    have hdrop : octetsNat (dropLead 0x00 (beBytes v)) = v.toNat := by
      rw [← shiftIn_zero_toNat (by omega), shiftIn_dropLead_zero]
    rw [berUintEnc]
    split
    · rw [octetsNat_zero_cons, hdrop]
    · exact hdrop
  rw [berInteger_of_unsigned hne (berUintEnc_sign v), hnat]

/-- **The octets of an integer stand for it.** -/
theorem berInteger_berIntEnc (value : Int32) :
    berInteger (berIntEnc value) = some value.toInt := by
  have hcond : value.toInt = if 2 * value.toUInt32.toNat < 2 ^ 32 then
      (value.toUInt32.toNat : ℤ) else value.toUInt32.toNat - 2 ^ 32 :=
    BitVec.toInt_eq_toNat_cond value.toBitVec
  have hlt := value.toUInt32.toNat_lt
  by_cases h : 0 ≤ value
  · have hint : 0 ≤ value.toInt := Int32.le_iff_toInt_le.mp h
    rw [berIntEnc_of_nonneg h, berInteger_berUintEnc, hcond]
    split at hcond <;> simp <;> omega
  · obtain ⟨hsign, hfill⟩ := berIntEnc_of_neg h
    have hint : ¬ 0 ≤ value.toInt := fun hc => h (Int32.le_iff_toInt_le.mpr hc)
    have hne : berIntEnc value ≠ [] := by
      intro hnil
      rw [hnil] at hsign
      exact hsign rfl
    have hlen := congrArg List.length hfill
    rw [length_append, length_replicate] at hlen
    change _ = 4 at hlen
    have hnat := octetsNat_filled (4 - (berIntEnc value).length) (berIntEnc value)
    rw [hfill, octetsNat_beBytes, hlen] at hnat
    rw [berInteger_of_signed hne hsign, hcond]
    split at hcond
    · omega
    · next hbig =>
        rw [if_neg hbig, hnat]
        norm_num

/-- An integer is the same after decoding and encoding exactly when it has 32 bits. -/
theorem berInteger_recoded_iff {x : Int32} (h : berInteger bs = some v)
    (hdec : berIntDec bs = some x) :
    berInteger (berIntEnc x) = some v ↔ -2 ^ 31 ≤ v ∧ v < 2 ^ 31 := by
  rw [berInteger_berIntEnc, berIntDec_of_meaning h hdec, some.injEq]
  have hlow := Int.le_bmod (x := v) (m := 2 ^ 32) (by decide)
  have hhigh := Int.bmod_lt (x := v) (m := 2 ^ 32) (by decide)
  constructor
  · intro heq
    rw [heq] at hlow hhigh
    norm_num at hlow hhigh ⊢
    exact ⟨hlow, hhigh⟩
  · rintro ⟨hge, hlt⟩
    exact Int.bmod_eq_of_le (by norm_num; exact hge) (by norm_num; exact hlt)

/-- For the unsigned types it has to be a number of 32 bits that is not negative. -/
theorem berInteger_recoded_unsigned_iff (h : berInteger bs = some v) :
    berInteger (berUintEnc (berUintDec bs)) = some v ↔ 0 ≤ v ∧ v < 2 ^ 32 := by
  have hne := ne_nil_of_berInteger h
  have hdec : (berUintDec bs).toNat = octetsNat bs % 2 ^ 32 := by
    rw [berUintDec, shiftIn_drop_zero, shiftIn_toNat, UInt32.toNat_zero, Nat.zero_mul,
      Nat.zero_add]
  rw [berInteger_berUintEnc, hdec, some.injEq]
  constructor
  · intro heq
    omega
  · rintro ⟨hge, hlt⟩
    have hsign : bs.headD 0 &&& 0x80 = 0 := by
      by_contra hsign
      rw [berInteger_of_signed hne hsign, some.injEq] at h
      have hbound : (octetsNat bs : ℤ) < 256 ^ bs.length := by exact_mod_cast octetsNat_lt bs
      omega
    rw [berInteger_of_unsigned hne hsign, some.injEq] at h
    omega

/-! ### Object identifiers -/

/-- The sub-identifiers to the base 128, with the number `n` collected so far. -/
def subIdsNat (n : ℕ) : List UInt8 → List ℕ
  | [] => []
  | b :: bs =>
    let n' := n * 128 + (b &&& 0x7f).toNat
    if b &&& 0x80 = 0 then n' :: subIdsNat 0 bs else subIdsNat n' bs

/-- The object identifier that a content stands for, if its last sub-identifier is complete. -/
def berObjid (bs : List UInt8) : Option (List ℕ) :=
  if bs = [] ∨ bs.getLastD 0 &&& 0x80 ≠ 0 then none else some (subIdsNat 0 bs)

/-- The octets without the continuation bit. -/
def ends (bs : List UInt8) : ℕ := bs.countP fun b => b &&& 0x80 = 0

/-- There is a sub-identifier for each octet that ends one. -/
theorem subIdsNat_length (n : ℕ) (bs : List UInt8) : (subIdsNat n bs).length = ends bs := by
  induction bs generalizing n with
  | nil => rfl
  | cons b bs ih =>
    rw [subIdsNat, ends, countP_cons, ← ends]
    split
    · next h => simp [ih, h]
    · next h => simp [ih, h]

/-- A content has as many sub-identifiers as octets that end one. -/
theorem length_of_berObjid {v : List ℕ} (h : berObjid bs = some v) : v.length = ends bs := by
  rw [berObjid] at h
  split at h
  · cases h
  · rw [← some.inj h, subIdsNat_length]

/-- An octet without its high bit ends a sub-identifier. -/
theorem ends_cons (b : UInt8) (bs : List UInt8) :
    ends (b :: bs) = ends bs + if b &&& 0x80 = 0 then 1 else 0 := by
  simp [ends, countP_cons]

/-- Sub-identifiers are encoded with one end each. -/
theorem ends_flatMap_subIdEnc (ids : Oid) : ends (ids.flatMap subIdEnc) = ids.length := by
  rw [ends, ← berOidDecLoop_length 0, berOidDecLoop_flatMap]

/-- The decoder makes two of the first octet. -/
theorem berOidDec_cons_length (b : UInt8) (bs : List UInt8) :
    (berOidDec (b :: bs)).length = 2 + ends bs := by
  rw [berOidDec, length_cons, length_cons, berOidDecLoop_length, ← ends]
  omega

/-- The first octet comes back from the first two sub-identifiers. -/
theorem berOidEnc_berOidDec_take (b : UInt8) (bs : List UInt8) (n : ℕ) :
    berOidEnc ((berOidDec (b :: bs)).take (n + 2)) =
      b :: ((berOidDecLoop 0 bs).take n).flatMap subIdEnc := by
  rw [berOidDec, take_succ_cons, take_succ_cons, berOidEnc,
    firstOctet_recoded]

/-- Every sub-identifier takes an octet. -/
theorem subIdDigits_length_pos (fuel : ℕ) (id : UInt32) :
    0 < (subIdDigits (fuel + 1) id).length := by
  rw [subIdDigits]
  exact Nat.succ_pos _

/-- A content whose object identifier has one number that is below 40, and whose size is given as
one, is a zero. -/
theorem eq_zero_of_size_one {b : UInt8} {v : List ℕ} (hv : berObjid (b :: bs) = some v)
    (hsize : berOidEncTry (berOidDec (b :: bs)) = some 1)
    (hx : berObjid [(b / 40).toUInt32.toUInt8] = some v) : b :: bs = [0] := by
  have hends : ends (b :: bs) = 1 := by
    rw [← length_of_berObjid hv, length_of_berObjid hx, ends_cons]
    have hsmall : ∀ b : UInt8, (b / 40).toUInt32.toUInt8 &&& 0x80 = 0 :=
      forall_octet (by decide +kernel)
    rw [if_pos (hsmall b)]
    rfl
  rw [ends_cons] at hends
  split at hends
  · -- the first octet is the only one that ends a number, so it is the last one
    have hnil : bs = [] := by
      by_contra hne
      rw [berObjid] at hv
      split at hv
      · cases hv
      · next hlast =>
          have hclear : bs.getLast hne &&& 0x80 = 0 := by
            rw [getLastD_cons, getLastD_eq_getLast?, getLast?_eq_some_getLast hne]
              at hlast
            exact not_not.mp (not_or.mp hlast).2
          have hpos : 0 < ends bs :=
            countP_pos_iff.mpr ⟨_, getLast_mem hne, by simpa using hclear⟩
          omega
    have hzero : ∀ b : UInt8, berObjid [b] = berObjid [(b / 40).toUInt32.toUInt8] → b = 0 :=
      forall_octet (by decide +kernel)
    subst hnil
    rw [hzero b (hv.trans hx.symm)]
  · -- the first octet goes on in a second one, and the size is at least two
    have hone : (berOidDecLoop 0 bs).length = 1 := by
      rw [berOidDecLoop_length, ← ends]
      omega
    obtain ⟨id, hid⟩ := length_eq_one_iff.mp hone
    have hpos : 0 < (subIdDigits 5 id).length := subIdDigits_length_pos 4 id
    have hle := subIdDigits_length_le 5 id
    rw [berOidDec, hid] at hsize
    simp only [berOidEncTry, length_cons, length_nil, Nat.reduceAdd, Nat.reduceLT,
      if_false, gt_iff_lt, drop_succ_cons, drop_zero, map_cons, map_nil,
      sum_cons, sum_nil, some.injEq] at hsize
    omega

/-- **OIDs cut short**: of the sub-identifiers of a content the first ones, as many as the content
takes octets, stand for the same object identifier only if they are all of them. The identifier
`0.0` is the exception. -/
theorem berObjid_cut_iff {v : List ℕ} {n : ℕ} (hv : berObjid bs = some v)
    (hsize : berOidEncTry (berOidDec bs) = some n) (hle : n ≤ (berOidDec bs).length) :
    berObjid (berOidEnc ((berOidDec bs).take n)) = some v ↔
      (n = (berOidDec bs).length ∧ berObjid (berOidEnc (berOidDec bs)) = some v) ∨ bs = [0] := by
  constructor
  · intro h
    cases bs with
    | nil => cases hv
    | cons b bs =>
      match n with
      | 0 => cases h
      | 1 => exact .inr (eq_zero_of_size_one hv hsize h)
      | n + 2 =>
        have hends := (length_of_berObjid h).symm.trans (length_of_berObjid hv)
        rw [berOidDec_cons_length] at hle
        rw [berOidEnc_berOidDec_take, ends_cons, ends_cons, ends_flatMap_subIdEnc,
          length_take, berOidDecLoop_length, ← ends] at hends
        have hall : n + 2 = (berOidDec (b :: bs)).length := by
          rw [berOidDec_cons_length]
          omega
        rw [hall, take_length] at h
        exact .inl ⟨hall, h⟩
  · rintro (⟨rfl, h⟩ | rfl)
    · rwa [take_length]
    · obtain rfl : 1 = n := some.inj hsize
      exact hv

/-! ### Values -/

/-- A value of a varbind. -/
inductive BerValue where
  | integer (n : ℤ)
  | objid (ids : List ℕ)
  | octets (bs : List UInt8)
deriving DecidableEq

/-- The value that a content of a type stands for, if it stands for one. -/
def berMeaning (type : UInt8) (content : List UInt8) : Option BerValue :=
  if type = asn1TagInt ∨ type = asn1TagCnt ∨ type = asn1TagGau ∨ type = asn1TagTimeticks then
    (berInteger content).map .integer
  else if type = asn1TagObjid then (berObjid content).map .objid
  else if type = asn1TagNul ∧ content ≠ [] then none
  else some (.octets content)

/-- A second content stands for the value of the first one, if that stands for one. -/
def SameMeaning (type : UInt8) (content content' : List UInt8) : Prop :=
  ∀ v, berMeaning type content = some v → berMeaning type content' = some v

/-- An injective reading of two results. -/
theorem forall_map_eq_some_iff {α β : Type} {f : α → β} (hf : Function.Injective f)
    {a b : Option α} :
    (∀ v, a.map f = some v → b.map f = some v) ↔ ∀ x, a = some x → b = some x := by
  constructor
  · rintro h x rfl
    exact map_injective hf (h (f x) rfl)
  · intro h v hv
    obtain ⟨x, rfl, rfl⟩ := map_eq_some_iff.mp hv
    rw [h x rfl, map_some]

/-- For numbers, the meaning is that of an INTEGER. -/
theorem sameMeaning_number_iff {type : UInt8} {content content' : List UInt8}
    (h : type = asn1TagInt ∨ type = asn1TagCnt ∨ type = asn1TagGau ∨ type = asn1TagTimeticks) :
    SameMeaning type content content' ↔
      ∀ v, berInteger content = some v → berInteger content' = some v := by
  simp only [SameMeaning, berMeaning, if_pos h]
  exact forall_map_eq_some_iff fun _ _ heq => BerValue.integer.inj heq

/-- For OBJECT IDENTIFIERs, the sub-identifiers. -/
theorem sameMeaning_objid_iff {content content' : List UInt8} :
    SameMeaning asn1TagObjid content content' ↔
      ∀ v, berObjid content = some v → berObjid content' = some v :=
  forall_map_eq_some_iff fun _ _ heq => BerValue.objid.inj heq

end SmithSnmp
