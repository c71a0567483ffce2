import SmithSnmp.BerMeaning
import SmithSnmp.Words

/-!
# Object Identifiers on the Wire

X.690 puts the first two arcs of an object identifier into one number and writes all numbers to the
base 128. `ber_oid_enc` and `ber_oid_dec` do so for all sub-identifiers but the first two: these are
one octet for them, whatever its top bit is. Decoding and encoding what was received is safe all the
same, since both sides are wrong in the same way.

The size of an encoding is counted in eight bits.

## Main results

* `subIdEnc_eq`: the octets of a sub-identifier are its group to the base 128.
* `berOidEncTry_exact_iff`: when the size is the number of octets.
* `berOid_reencoded`: what a received OID is encoded to again.
* `oid_transported_iff`: the OIDs that are encoded and decoded as X.690 says.
-/

namespace SmithSnmp

open List Lib Option

/-! ### Sub-identifiers -/

/-- The octet of a digit that others follow. -/
theorem high_digit (id : UInt32) :
    ((id &&& 0x7f) ||| 0x80).toUInt8 = UInt8.ofNat (id.toNat % 128 + 128) := by
  obtain ⟨⟨hhigh, hdigit⟩, -⟩ := digit_bits id
  rw [← Base128.ofNat_digit_of_high hhigh, Base128.digit, hdigit]

theorem last_digit (id : UInt32) :
    ((id &&& 0x7f) ||| 0x80).toUInt8 &&& 0x7f = UInt8.ofNat (id.toNat % 128) := by
  obtain ⟨-, hlast, hdigit⟩ := digit_bits id
  rw [← Base128.ofNat_digit_of_last hlast, Base128.digit, hdigit]

/-- The first inner loop of `ber_oid_enc` writes the digits of a number. -/
theorem subIdDigits_eq {fuel : ℕ} {id : UInt32} (hne : id.toNat ≠ 0) (h : id.toNat < 128 ^ fuel) :
    subIdDigits fuel id = (Nat.digits 128 id.toNat).map fun d => UInt8.ofNat (d + 128) := by
  induction fuel generalizing id with
  | zero => omega
  | succ fuel ih =>
    have hdiv : (id / 128).toNat = id.toNat / 128 := UInt32.toNat_div id 128
    rw [subIdDigits, Nat.digits_def' (by omega) (Nat.pos_of_ne_zero hne), map_cons,
      high_digit]
    congr 1
    by_cases hzero : id / 128 = 0
    · rw [if_pos hzero, ← hdiv, hzero]
      rfl
    · have hne' : (id / 128).toNat ≠ 0 := fun hc => hzero (UInt32.toNat_inj.mp hc)
      have hlt : (id / 128).toNat < 128 ^ fuel := by
        rw [hdiv]
        exact Nat.div_lt_of_lt_mul (by rwa [Nat.mul_comm, ← pow_succ])
      rw [if_neg hzero, ih hne' hlt, hdiv]

/-- **The octets of a sub-identifier** are its group to the base 128. -/
theorem subIdEnc_eq (id : UInt32) : subIdEnc id = Base128.encode id.toNat := by
  have hid := id.toNat_lt
  have hdiv : (id / 128).toNat = id.toNat / 128 := UInt32.toNat_div id 128
  have htail : (if id / 128 = 0 then [] else subIdDigits 4 (id / 128)) =
      (Nat.digits 128 (id.toNat / 128)).map fun d => UInt8.ofNat (d + 128) := by
    by_cases hzero : id / 128 = 0
    · rw [if_pos hzero, ← hdiv, hzero]
      rfl
    · have hne : (id / 128).toNat ≠ 0 := fun hc => hzero (UInt32.toNat_inj.mp hc)
      rw [if_neg hzero, subIdDigits_eq hne (by rw [hdiv]; omega), hdiv]
  rw [subIdEnc, subIdDigits, htail]
  dsimp only
  rw [last_digit, reverse_cons, Base128.encode]

/-- Sub-identifiers one after the other. -/
theorem flatMap_subIdEnc_eq (ids : Oid) :
    ids.flatMap subIdEnc = (ids.map UInt32.toNat).flatMap Base128.encode := by
  rw [flatMap_map]
  exact flatMap_congr fun id _ => subIdEnc_eq id

/-! ### Sizes -/

/-- **The size pass** counts the octets that are written if and only if there are at most 255 of
them, one for the first two sub-identifiers. -/
theorem berOidEncTry_exact_iff (oid : Oid) (h : oid.length ≤ asn1OidMaxLen) (tail : List UInt8) :
    berValueEncTry (oid.flatMap leBytes ++ tail) oid.length asn1TagObjid =
        some (berValueEnc (oid.flatMap leBytes ++ tail) oid.length asn1TagObjid).length ↔
      ((oid.drop 2).map fun id => (Base128.encode id.toNat).length).sum ≤ 254 := by
  have hmem := peekOid_flatMap_leBytes oid tail
  have htry : berValueEncTry (oid.flatMap leBytes ++ tail) oid.length asn1TagObjid =
      berOidEncTry oid := by
    rw [berValueEncTry, if_neg (by decide), if_neg (by decide), if_pos rfl, hmem]
  have henc : berValueEnc (oid.flatMap leBytes ++ tail) oid.length asn1TagObjid =
      berOidEnc oid := by
    rw [berValueEnc, if_neg (by decide), if_neg (by decide), if_pos rfl, hmem]
  rw [htry, henc]
  rcases oid with _ | ⟨x, _ | ⟨y, rest⟩⟩
  · simp [berOidEncTry, berOidEnc]
  · simp [berOidEncTry, berOidEnc]
  · have hlong : ¬ 255 < (x :: y :: rest).length := by
      rw [asn1OidMaxLen] at h
      omega
    have hshort : ¬ (x :: y :: rest).length < 2 := by simp
    have hsizes : (rest.map fun id => (Base128.encode id.toNat).length) =
        rest.map fun id => (subIdDigits 5 id).length :=
      map_congr_left fun id _ => by rw [← subIdEnc_eq, subIdEnc_length]
    rw [berOidEncTry, if_neg hshort, if_neg hlong, berOidEnc, length_cons,
      flatMap_subIdEnc_length, drop_succ_cons, drop_succ_cons, drop_zero, hsizes,
      some.injEq]
    omega

/-- The OID `1.3.6.1.4.1.99999`: one octet in front, and the last sub-identifier takes three. -/
theorem berOidEncTry_exact_enterprise :
    let oid : Oid := [1, 3, 6, 1, 4, 1, 99999]
    oid.length ≤ asn1OidMaxLen ∧ berValueEncTry (oid.flatMap leBytes) oid.length asn1TagObjid =
      some (berValueEnc (oid.flatMap leBytes) oid.length asn1TagObjid).length := by
  intro oid
  have h := (berOidEncTry_exact_iff oid (by decide) []).mpr (by decide)
  rw [append_nil] at h
  exact ⟨by decide, h⟩

/-- Of the 311 octets of an OID with 62 large sub-identifiers 55 are counted. -/
theorem berOidEncTry_wraps :
    let oid : Oid := 1 :: 3 :: List.replicate 62 0xffffffff
    oid.length = asn1OidMaxLen ∧
      berValueEncTry (oid.flatMap leBytes) oid.length asn1TagObjid = some 55 ∧
        (berValueEnc (oid.flatMap leBytes) oid.length asn1TagObjid).length = 311 := by
  decide +kernel

/-! ### Received OIDs -/

/-- A group is read as one sub-identifier. -/
theorem berOidDecLoop_group {g : List UInt8} (h : Base128.Minimal g)
    (hlt : Base128.value g < 2 ^ 32) (rest : List UInt8) :
    berOidDecLoop 0 (g ++ rest) = UInt32.ofNat (Base128.value g) :: berOidDecLoop 0 rest := by
  have hid : (UInt32.ofNat (Base128.value g)).toNat = Base128.value g :=
    UInt32.toNat_ofNat_of_lt hlt
  have hg : subIdEnc (UInt32.ofNat (Base128.value g)) = g := by
    rw [subIdEnc_eq, hid, Base128.encode_value h]
  conv_lhs => rw [← hg]
  exact berOidDecLoop_subIdEnc _ rest

theorem flatMap_subIdEnc_berOidDecLoop {groups : List (List UInt8)}
    (h : ∀ g ∈ groups, Base128.Minimal g ∧ Base128.value g < 2 ^ 32) :
    (berOidDecLoop 0 groups.flatten).flatMap subIdEnc = groups.flatten := by
  induction groups with
  | nil => rfl
  | cons g groups ih =>
    obtain ⟨⟨hmin, hlt⟩, hrest⟩ := forall_mem_cons.mp h
    have hid : (UInt32.ofNat (Base128.value g)).toNat = Base128.value g :=
      UInt32.toNat_ofNat_of_lt hlt
    rw [flatten_cons, berOidDecLoop_group hmin hlt, flatMap_cons, ih hrest, subIdEnc_eq,
      hid, Base128.encode_value hmin]

/-- **Received OIDs** are the same after encoding and decoding, whatever their octets are; and the
octets are the same after decoding and encoding if they are a first octet and complete minimal
groups of numbers below `2 ^ 32`. -/
theorem berOid_reencoded (b : List UInt8) (hb : b ≠ []) :
    berOidDec (berOidEnc (berOidDec b)) = berOidDec b ∧
      ∀ (first : UInt8) (groups : List (List UInt8)), b = first :: groups.flatten →
        (∀ g ∈ groups, Base128.Minimal g ∧ Base128.value g < 2 ^ 32) →
          berOidEnc (berOidDec b) = b := by
  refine ⟨berOidDec_berOidEnc ⟨b, hb, rfl⟩, ?_⟩
  rintro first groups rfl hgroups
  rw [berOidDec, berOidEnc, firstOctet_recoded, flatMap_subIdEnc_berOidDecLoop hgroups]

/-- The content of `1.3.6.99999`, with a group of one octet and one of three. -/
theorem berOid_reencoded_groups :
    let b : List UInt8 := [0x2b, 0x06, 0x86, 0x8d, 0x1f]
    berOidDec (berOidEnc (berOidDec b)) = berOidDec b ∧ berOidEnc (berOidDec b) = b := by
  intro b
  obtain ⟨hdec, henc⟩ := berOid_reencoded b (by decide)
  refine ⟨hdec, henc 0x2b [[0x06], [0x86, 0x8d, 0x1f]] rfl ?_⟩
  simp only [mem_cons, not_mem_nil, or_false]
  rintro g (rfl | rfl)
  · have hhigh : ∀ b ∈ ([] : List UInt8), b &&& 0x80 ≠ 0 := forall_mem_nil _
    exact ⟨⟨⟨[], 0x06, rfl, hhigh, by decide⟩, by decide⟩, by decide +kernel⟩
  · have hhigh : ∀ b ∈ ([0x86, 0x8d] : List UInt8), b &&& 0x80 ≠ 0 :=
      forall_mem_cons.mpr ⟨by decide, forall_mem_singleton.mpr (by decide)⟩
    exact ⟨⟨⟨[0x86, 0x8d], 0x1f, rfl, hhigh, by decide⟩, by decide⟩, by decide +kernel⟩

/-! ### X.690 -/

/-- The arcs in the first number of an object identifier: `40 * x + y`, with `y` below 40 unless `x`
is two. -/
def splitArcs : List ℕ → List ℕ
  | [] => []
  | z :: rest => min (z / 40) 2 :: (z - 40 * min (z / 40) 2) :: rest

/-- Decoding by the rules of X.690. -/
def x690Dec (bs : List UInt8) : Option (List ℕ) := (berObjid bs).map splitArcs

/-- Encoding by the rules of X.690. -/
def x690Enc : List ℕ → List UInt8
  | x :: y :: rest => ((40 * x + y) :: rest).flatMap Base128.encode
  | _ => []

/-- The first two arcs that X.690 allows, with a first number of 32 bits. -/
def LegalArcs (x y : ℕ) : Prop := (x < 2 ∧ y < 40) ∨ (x = 2 ∧ 80 + y < 2 ^ 32)

/-- The octets of a group in front are read as its number. -/
theorem subIdsNat_high (n : ℕ) {high : List UInt8} (h : ∀ b ∈ high, b &&& 0x80 ≠ 0)
    (rest : List UInt8) :
    subIdsNat n (high ++ rest) = subIdsNat (n * 128 ^ high.length + Base128.value high) rest := by
  induction high generalizing n with
  | nil => simp [Base128.value]
  | cons b high ih =>
    obtain ⟨hb, hhigh⟩ := forall_mem_cons.mp h
    rw [cons_append, subIdsNat, if_neg hb, ih _ hhigh, Base128.value_cons, Base128.digit,
      length_cons, pow_succ]
    congr 1
    ring

theorem subIdsNat_group {g : List UInt8} (h : Base128.IsGroup g) (rest : List UInt8) :
    subIdsNat 0 (g ++ rest) = Base128.value g :: subIdsNat 0 rest := by
  obtain ⟨high, last, rfl, hhigh, hlast⟩ := h
  rw [append_assoc, subIdsNat_high 0 hhigh, singleton_append, subIdsNat, if_pos hlast,
    Base128.value_append_last, Nat.zero_mul, Nat.zero_add, Base128.digit]

/-- Groups one after the other are an object identifier. -/
theorem berObjid_flatMap_encode {ns : List ℕ} (h : ns ≠ []) :
    berObjid (ns.flatMap Base128.encode) = some ns := by
  have hnums : subIdsNat 0 (ns.flatMap Base128.encode) = ns := by
    clear h
    induction ns with
    | nil => rfl
    | cons n ns ih =>
      rw [flatMap_cons, subIdsNat_group (Base128.isGroup_encode n), Base128.value_encode, ih]
  obtain ⟨ms, n, rfl⟩ := (eq_nil_or_concat' ns).resolve_left h
  obtain ⟨high, last, hg, -, hlast⟩ := Base128.isGroup_encode n
  rw [berObjid, if_neg ?_, hnums]
  rw [flatMap_append, flatMap_singleton, hg, ← append_assoc, getLastD_concat]
  simp [hlast]

theorem x690Dec_x690Enc {x y : ℕ} (h : LegalArcs x y) (rest : List ℕ) :
    x690Dec (x690Enc (x :: y :: rest)) = some (x :: y :: rest) := by
  have hx : min ((40 * x + y) / 40) 2 = x := by
    rcases h with ⟨hx, hy⟩ | ⟨rfl, -⟩ <;> omega
  have hy : 40 * x + y - 40 * x = y := by omega
  rw [x690Dec, x690Enc, berObjid_flatMap_encode (cons_ne_nil _ _), map_some, splitArcs,
    hx, hy]

section Transport

variable {x y : UInt32}

theorem LegalArcs.toNat_first (h : LegalArcs x.toNat y.toNat) :
    (x * 40 + y).toNat = 40 * x.toNat + y.toNat := by
  rw [UInt32.toNat_add, UInt32.toNat_mul]
  simp only [UInt32.reduceToNat]
  rcases h with ⟨hx, hy⟩ | ⟨hx, hy⟩ <;> omega

/-- The first octet of `ber_oid_enc`. -/
theorem LegalArcs.first_octet (h : LegalArcs x.toNat y.toNat) :
    (x * 40 + y).toUInt8 = UInt8.ofNat (40 * x.toNat + y.toNat) := by
  rw [← UInt8.toNat_inj, UInt32.toNat_toUInt8, h.toNat_first, UInt8.toNat_ofNat']

/-- **Encoding.** The octets of `ber_oid_enc` stand for the OID exactly when the first number is a
single digit. -/
theorem LegalArcs.x690Dec_berOidEnc_iff (h : LegalArcs x.toNat y.toNat) (rest : Oid) :
    x690Dec (berOidEnc (x :: y :: rest)) = some ((x :: y :: rest).map UInt32.toNat) ↔
      40 * x.toNat + y.toNat < 128 := by
  have hbytes : berOidEnc (x :: y :: rest) = UInt8.ofNat (40 * x.toNat + y.toNat) ::
      (rest.map UInt32.toNat).flatMap Base128.encode := by
    rw [berOidEnc, h.first_octet, flatMap_subIdEnc_eq]
  rw [map_cons, map_cons]
  constructor
  · intro hdec
    obtain ⟨ns, hns, hsplit⟩ := map_eq_some_iff.mp hdec
    have hends := length_of_berObjid hns
    have hrest : ends ((rest.map UInt32.toNat).flatMap Base128.encode) = rest.length := by
      rw [← flatMap_subIdEnc_eq, ends_flatMap_subIdEnc]
    cases ns with
    | nil => cases hsplit
    | cons z zs =>
      rw [splitArcs, List.cons.injEq, List.cons.injEq] at hsplit
      obtain ⟨hx, hy, rfl⟩ := hsplit
      -- there are as many numbers as sub-identifiers behind the second, and one more
      rw [hbytes, ends_cons, hrest, length_cons, length_map] at hends
      split at hends
      · next hlast =>
          rw [hbytes] at hns
          have hgroup : Base128.IsGroup [UInt8.ofNat (40 * x.toNat + y.toNat)] :=
            ⟨[], _, rfl, by simp, hlast⟩
          have hnums := subIdsNat_group hgroup ((rest.map UInt32.toNat).flatMap Base128.encode)
          rw [berObjid] at hns
          split at hns
          · cases hns
          · rw [some.injEq] at hns
            have hz := (List.cons.inj (hnums.symm.trans hns)).1
            have hlt : Base128.value [UInt8.ofNat (40 * x.toNat + y.toNat)] < 128 := by
              have := Base128.digit_lt (UInt8.ofNat (40 * x.toNat + y.toNat))
              simpa [Base128.value] using this
            omega
      · omega
  · intro hlt
    have hsame : berOidEnc (x :: y :: rest) =
        x690Enc (x.toNat :: y.toNat :: rest.map UInt32.toNat) := by
      rw [hbytes, x690Enc, flatMap_cons, Base128.encode_of_lt hlt,
        singleton_append]
    rw [hsame, x690Dec_x690Enc h]

/-- **Decoding.** `ber_oid_dec` finds the OID exactly when the second arc is below 40. -/
theorem LegalArcs.berOidDec_x690Enc_iff (h : LegalArcs x.toNat y.toNat) (rest : Oid) :
    berOidDec (x690Enc ((x :: y :: rest).map UInt32.toNat)) = x :: y :: rest ↔ y.toNat < 40 := by
  rw [map_cons, map_cons, x690Enc, flatMap_cons, ← flatMap_subIdEnc_eq]
  by_cases hlt : 40 * x.toNat + y.toNat < 128
  · have hbyte : (40 * x.toNat + y.toNat) % 2 ^ 8 = 40 * x.toNat + y.toNat :=
      Nat.mod_eq_of_lt (by omega)
    rw [Base128.encode_of_lt hlt, singleton_append, berOidDec, berOidDecLoop_flatMap]
    simp only [List.cons.injEq, and_true, ← UInt32.toNat_inj, UInt8.toNat_toUInt32, UInt8.toNat_div,
      UInt8.toNat_mod, UInt8.toNat_ofNat', UInt8.reduceToNat, hbyte]
    omega
  · -- the first octet has the top bit, and its quotient is at least three
    have hy : ¬ y.toNat < 40 := by
      rcases h with ⟨hx, hy⟩ | ⟨hx, hy⟩ <;> omega
    have hbig : ∀ b : UInt8, b &&& 0x80 ≠ 0 → 3 ≤ (b / 40).toNat := forall_octet (by decide +kernel)
    refine iff_of_false (fun heq => ?_) hy
    obtain ⟨b, g, hg, hhigh⟩ := Base128.encode_of_le (not_lt.mp hlt)
    rw [hg, cons_append, berOidDec, List.cons.injEq] at heq
    have hx := congrArg UInt32.toNat heq.1
    have hb := hbig b hhigh
    rw [UInt8.toNat_toUInt32] at hx
    rcases h with ⟨hx', -⟩ | ⟨hx', -⟩ <;> omega

end Transport

/-- **Legal OIDs.** The octets of `ber_oid_enc` stand for a legal OID if and only if its first number
is below 128, and `ber_oid_dec` decodes it if and only if its second arc is below 40. Both are so for
the first arcs 0 and 1. -/
theorem oid_transported_iff (x y : UInt32) (rest : Oid) (h : LegalArcs x.toNat y.toNat) :
    (x690Dec (berOidEnc (x :: y :: rest)) = some ((x :: y :: rest).map UInt32.toNat) ↔
      40 * x.toNat + y.toNat < 128) ∧
    (berOidDec (x690Enc ((x :: y :: rest).map UInt32.toNat)) = x :: y :: rest ↔ y.toNat < 40) :=
  ⟨h.x690Dec_berOidEnc_iff rest, h.berOidDec_x690Enc_iff rest⟩

/-- The OID `2.5.4.3` is encoded and decoded. -/
theorem oid_transported_x500 :
    LegalArcs 2 5 ∧ x690Dec (berOidEnc [2, 5, 4, 3]) = some [2, 5, 4, 3] ∧
      berOidDec (x690Enc [2, 5, 4, 3]) = [2, 5, 4, 3] := by
  have hlegal : LegalArcs (2 : UInt32).toNat (5 : UInt32).toNat := .inr ⟨rfl, by decide⟩
  obtain ⟨henc, hdec⟩ := oid_transported_iff 2 5 [4, 3] hlegal
  exact ⟨hlegal, henc.mpr (by decide), hdec.mpr (by decide)⟩

/-- The OID `2.48` is encoded to a single octet with the top bit, which stands for nothing, and
`2.40` is decoded to `3.0`. -/
theorem oid_not_transported :
    LegalArcs 2 48 ∧ berOidEnc [2, 48] = [0x80] ∧ x690Dec (berOidEnc [2, 48]) = none ∧
      LegalArcs 2 40 ∧ x690Enc [2, 40] = [0x78] ∧ berOidDec (x690Enc [2, 40]) = [3, 0] := by
  have hsmall : 80 + 48 < 2 ^ 32 ∧ 80 + 40 < 2 ^ 32 := by norm_num
  refine ⟨.inr ⟨rfl, hsmall.1⟩, by decide +kernel, by decide +kernel, .inr ⟨rfl, hsmall.2⟩, ?_⟩
  decide +kernel

end SmithSnmp
