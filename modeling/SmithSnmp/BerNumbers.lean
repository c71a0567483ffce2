import SmithSnmp.BerMeaning
import SmithSnmp.Words

/-!
# Numbers on the Wire

The types INTEGER, Counter, Gauge and TimeTicks are 32-bit numbers in memory, the first of them with
a sign. `ber_value_enc` and `ber_value_dec` have two codecs for them, one for signed and one for
unsigned numbers, and take the signed one for counters too.

## Main results

* `numbers_denote_iff`: when the octets of a number stand for it.
* `berInteger_shortest`: octets without a redundant one in front are the shortest for their number.
* `numbers_roundTrip`: numbers are decoded to what was encoded, in the shortest way.
-/

namespace SmithSnmp

open List Lib Option

variable {bs : List UInt8} {v : ℤ}

/-- The tags of numbers. -/
def NumberTag (tag : UInt8) : Prop :=
  tag = asn1TagInt ∨ tag = asn1TagCnt ∨ tag = asn1TagGau ∨ tag = asn1TagTimeticks

instance NumberTag.decidable (tag : UInt8) : Decidable (NumberTag tag) :=
  inferInstanceAs (Decidable (_ ∨ _ ∨ _ ∨ _))

/-- The number that a word in memory is, by the C type of the tag. -/
def numberOf (tag : UInt8) (v : UInt32) : ℤ :=
  if tag = asn1TagInt then v.toInt32.toInt else v.toNat

/-! ### The two codecs -/

theorem NumberTag.routed {tag : UInt8} (h : NumberTag tag) :
    (tag = asn1TagInt ∨ tag = asn1TagCnt) ∨
      ¬ (tag = asn1TagInt ∨ tag = asn1TagCnt) ∧ (tag = asn1TagGau ∨ tag = asn1TagTimeticks) := by
  rcases h with rfl | rfl | rfl | rfl <;> decide

/-- The signed number of a word is the unsigned one below `2 ^ 31`. -/
theorem toInt_toInt32_eq_iff (v : UInt32) :
    v.toInt32.toInt = (v.toNat : ℤ) ↔ v.toNat < 2 ^ 31 := by
  have hcond : v.toInt32.toInt = if 2 * v.toNat < 2 ^ 32 then (v.toNat : ℤ) else v.toNat - 2 ^ 32 :=
    BitVec.toInt_eq_toNat_cond v.toBitVec
  have hlt := v.toNat_lt
  rw [hcond]
  split <;> omega

/-- **Numbers stand for themselves**, for every tag and every word in memory, except for counters
from `2 ^ 31` on, whose octets are those of a negative number. -/
theorem numbers_denote_iff (tag : UInt8) (htag : NumberTag tag) (mem : List UInt8) (len : ℕ) :
    berInteger (berValueEnc mem len tag) = some (numberOf tag (peekWord mem)) ↔
      (tag = asn1TagCnt → (peekWord mem).toNat < 2 ^ 31) := by
  rcases htag with rfl | rfl | rfl | rfl
  · exact iff_of_true (berInteger_berIntEnc _) fun h => absurd h (by decide)
  · have henc : berInteger (berValueEnc mem len asn1TagCnt) =
        some (peekWord mem).toInt32.toInt := berInteger_berIntEnc _
    have hnum : numberOf asn1TagCnt (peekWord mem) = (peekWord mem).toNat := rfl
    rw [henc, hnum, some.injEq, toInt_toInt32_eq_iff]
    exact ⟨fun h _ => h, fun h => h rfl⟩
  · exact iff_of_true (berInteger_berUintEnc _) fun h => absurd h (by decide)
  · exact iff_of_true (berInteger_berUintEnc _) fun h => absurd h (by decide)

/-- A gauge of `2 ^ 31` has five octets. -/
theorem numbers_denote_gauge :
    NumberTag asn1TagGau ∧
      berInteger (berValueEnc [0, 0, 0, 0x80] 1 asn1TagGau) = some (2 ^ 31) := by
  have htag : NumberTag asn1TagGau := by decide
  exact ⟨htag, (numbers_denote_iff asn1TagGau htag [0, 0, 0, 0x80] 1).mpr (by decide)⟩

/-- A counter of `2 ^ 31` is encoded as its negative. -/
theorem counter_turns_negative :
    NumberTag asn1TagCnt ∧ numberOf asn1TagCnt (peekWord [0, 0, 0, 0x80]) = 2 ^ 31 ∧
      berInteger (berValueEnc [0, 0, 0, 0x80] 1 asn1TagCnt) = some (-2 ^ 31) := by
  decide +kernel

/-! ### The shortest octets -/

/-- The first nine bits are not all the same: none of the octets in front is redundant. -/
def NoLead : List UInt8 → Prop
  | b :: c :: _ => 128 ≤ b.toNat * 256 + c.toNat ∧ b.toNat * 256 + c.toNat < 0xff80
  | _ => True

/-- What octets can stand for. -/
theorem berInteger_bounds (h : berInteger bs = some v) :
    -256 ^ bs.length ≤ 2 * v ∧ 2 * v < 256 ^ bs.length := by
  cases bs with
  | nil => cases h
  | cons b bs =>
    have hlt : (octetsNat bs : ℤ) < 256 ^ bs.length := by exact_mod_cast octetsNat_lt bs
    have hb : b.toNat < 256 := b.toNat_lt
    have hcons : (octetsNat (b :: bs) : ℤ) = b.toNat * 256 ^ bs.length + octetsNat bs := by
      exact_mod_cast octetsNat_cons b bs
    have hpow : (256 : ℤ) ^ (b :: bs).length = 256 * 256 ^ bs.length := by
      rw [length_cons, pow_succ]
      ring
    by_cases hsign : b &&& 0x80 = 0
    · rw [berInteger_of_unsigned (cons_ne_nil b bs) hsign, some.injEq] at h
      have hsmall := (top_clear_iff b).mp hsign
      have hle : (b.toNat : ℤ) * 256 ^ bs.length ≤ 127 * 256 ^ bs.length :=
        mul_le_mul_of_nonneg_right (by omega) (by positivity)
      have hnonneg : 0 ≤ (b.toNat : ℤ) * 256 ^ bs.length := by positivity
      omega
    · rw [berInteger_of_signed (cons_ne_nil b bs) hsign, some.injEq] at h
      have hbig := mt (top_clear_iff b).mpr hsign
      have hle : (b.toNat : ℤ) * 256 ^ bs.length ≤ 255 * 256 ^ bs.length :=
        mul_le_mul_of_nonneg_right (by omega) (by positivity)
      have hge : 128 * 256 ^ bs.length ≤ (b.toNat : ℤ) * 256 ^ bs.length :=
        mul_le_mul_of_nonneg_right (by omega) (by positivity)
      omega

/-- What octets without a redundant one stand for is out of reach with one octet less. -/
theorem berInteger_of_noLead {b c : UInt8} (hlead : NoLead (b :: c :: bs))
    (h : berInteger (b :: c :: bs) = some v) :
    256 ^ (bs.length + 1) ≤ 2 * v ∨ 2 * v < -256 ^ (bs.length + 1) := by
  obtain ⟨hlow, hhigh⟩ := hlead
  have hlt : (octetsNat bs : ℤ) < 256 ^ bs.length := by exact_mod_cast octetsNat_lt bs
  have hcons : (octetsNat (b :: c :: bs) : ℤ) =
      (b.toNat * 256 + c.toNat : ℕ) * 256 ^ bs.length + octetsNat bs := by
    rw [octetsNat_cons, octetsNat_cons, length_cons, pow_succ]
    push_cast
    ring
  have hpow : (256 : ℤ) ^ (bs.length + 1) = 256 * 256 ^ bs.length := by ring
  have hpow₂ : (256 : ℤ) ^ (b :: c :: bs).length = 65536 * 256 ^ bs.length := by
    rw [length_cons, length_cons]
    ring
  generalize b.toNat * 256 + c.toNat = w at hlow hhigh hcons
  by_cases hsign : b &&& 0x80 = 0
  · rw [berInteger_of_unsigned (cons_ne_nil b _) hsign, some.injEq] at h
    have hge : 128 * 256 ^ bs.length ≤ (w : ℤ) * 256 ^ bs.length :=
      mul_le_mul_of_nonneg_right (by omega) (by positivity)
    omega
  · rw [berInteger_of_signed (cons_ne_nil b _) hsign, some.injEq] at h
    have hle : (w : ℤ) * 256 ^ bs.length ≤ 0xff7f * 256 ^ bs.length :=
      mul_le_mul_of_nonneg_right (by omega) (by positivity)
    omega

/-- **Octets without a redundant one are the shortest** that stand for their number. -/
theorem berInteger_shortest (hlead : NoLead bs) (h : berInteger bs = some v) {bs' : List UInt8}
    (h' : berInteger bs' = some v) : bs.length ≤ bs'.length := by
  rcases bs with _ | ⟨b, _ | ⟨c, bs⟩⟩
  · exact Nat.zero_le _
  · exact length_pos_iff.mpr (ne_nil_of_berInteger h')
  · by_contra hlt
    have hle : bs'.length ≤ bs.length + 1 := by
      simp only [length_cons] at hlt
      omega
    have hpow : (256 : ℤ) ^ bs'.length ≤ 256 ^ (bs.length + 1) :=
      pow_le_pow_right₀ (by omega) hle
    have hbounds := berInteger_bounds h'
    have hfar := berInteger_of_noLead hlead h
    omega

/-- What is left of some octets does not start with the filling, unless it is all there is. -/
theorem dropLead_head {fill : UInt8} {b c : UInt8} {rest : List UInt8}
    (h : dropLead fill bs = b :: c :: rest) : b ≠ fill := by
  induction bs with
  | nil => cases h
  | cons x bs ih =>
    cases bs with
    | nil => cases h
    | cons y bs =>
      rw [dropLead] at h
      split at h
      · exact ih h
      · next hx =>
          rw [← (List.cons.inj h).1]
          exact hx

/-- The unsigned encoder writes no redundant octet. -/
theorem noLead_berUintEnc (v : UInt32) : NoLead (berUintEnc v) := by
  rw [berUintEnc]
  rcases hbs : dropLead 0x00 (beBytes v) with _ | ⟨b, _ | ⟨c, rest⟩⟩
  · simp [NoLead]
  · rw [headD_cons]
    split
    · next hsign =>
        have hbig := mt (top_clear_iff b).mpr hsign
        have hb : b.toNat < 256 := b.toNat_lt
        simp only [NoLead, UInt8.toNat_zero]
        omega
    · trivial
  · have hne : b.toNat ≠ 0 := fun hc => dropLead_head hbs (UInt8.toNat_inj.mp hc)
    have hb : b.toNat < 256 := b.toNat_lt
    have hc : c.toNat < 256 := c.toNat_lt
    rw [headD_cons]
    split
    · next hsign =>
        have hbig := mt (top_clear_iff b).mpr hsign
        simp only [NoLead, UInt8.toNat_zero]
        omega
    · next hsign =>
        have hsmall := (top_clear_iff b).mp (not_not.mp hsign)
        simp only [NoLead]
        omega

/-- The signed encoder writes no redundant octet. -/
theorem noLead_berIntEnc (value : Int32) : NoLead (berIntEnc value) := by
  by_cases h : 0 ≤ value
  · rw [berIntEnc_of_nonneg h]
    exact noLead_berUintEnc _
  · rw [berIntEnc, if_neg h]
    dsimp only
    rcases hbs : dropLead 0xff (beBytes value.toUInt32) with _ | ⟨b, _ | ⟨c, rest⟩⟩
    · simp [NoLead]
    · rw [headD_cons]
      split
      · next hsign =>
          have hsmall := (top_clear_iff b).mp hsign
          simp only [NoLead, UInt8.reduceToNat]
          omega
      · trivial
    · have hne : b.toNat ≠ 255 := fun hc => dropLead_head hbs (UInt8.toNat_inj.mp hc)
      have hb : b.toNat < 256 := b.toNat_lt
      have hc : c.toNat < 256 := c.toNat_lt
      rw [headD_cons]
      split
      · next hsign =>
          have hsmall := (top_clear_iff b).mp hsign
          simp only [NoLead, UInt8.reduceToNat]
          omega
      · next hsign =>
          have hbig := mt (top_clear_iff b).mpr hsign
          simp only [NoLead]
          omega

/-! ### Round trip -/

/-- `ber_uint_dec` undoes `ber_uint_enc`. -/
theorem berUintDec_berUintEnc (v : UInt32) : berUintDec (berUintEnc v) = v := by
  rw [berUintDec, shiftIn_drop_zero, shiftIn_berUintEnc]

/-- **Numbers** of every tag and every word are decoded to what was encoded, the size is the number
of octets, and no shorter octets stand for the same number. -/
theorem numbers_roundTrip (tag : UInt8) (htag : NumberTag tag) (v : UInt32) (len : ℕ) :
    berValueDec (berValueEnc (leBytes v) len tag) tag = some (1, leBytes v) ∧
      berValueEncTry (leBytes v) len tag = some (berValueEnc (leBytes v) len tag).length ∧
      ∀ bs, berInteger bs = berInteger (berValueEnc (leBytes v) len tag) →
        (berValueEnc (leBytes v) len tag).length ≤ bs.length := by
  rcases htag.routed with hint | ⟨hint, huint⟩
  · have henc : berValueEnc (leBytes v) len tag = berIntEnc v.toInt32 := by
      rw [berValueEnc, if_pos hint, peekWord_leBytes]
    have hmeaning := berInteger_berIntEnc v.toInt32
    have hne := ne_nil_of_berInteger hmeaning
    rw [henc]
    refine ⟨?_, ?_, fun bs hbs => ?_⟩
    · rw [berValueDec, if_neg (length_eq_zero_iff.not.mpr hne), if_pos hint,
        berIntDec_berIntEnc, map_some, UInt32.toUInt32_toInt32]
    · rw [berValueEncTry, if_pos hint, peekWord_leBytes, berIntEnc_length]
    · exact berInteger_shortest (noLead_berIntEnc _) hmeaning (hbs.trans hmeaning)
  · have henc : berValueEnc (leBytes v) len tag = berUintEnc v := by
      rw [berValueEnc, if_neg hint, if_pos huint, peekWord_leBytes]
    have hmeaning := berInteger_berUintEnc v
    have hne := ne_nil_of_berInteger hmeaning
    rw [henc]
    refine ⟨?_, ?_, fun bs hbs => ?_⟩
    · rw [berValueDec, if_neg (length_eq_zero_iff.not.mpr hne), if_neg hint, if_pos huint,
        berUintDec_berUintEnc]
    · rw [berValueEncTry, if_neg hint, if_pos huint, peekWord_leBytes, berUintEnc_length]
    · exact berInteger_shortest (noLead_berUintEnc _) hmeaning (hbs.trans hmeaning)

/-- The counter `2 ^ 32 - 1` takes one octet and comes back. -/
theorem numbers_roundTrip_counter :
    NumberTag asn1TagCnt ∧ berValueEnc (leBytes 0xffffffff) 1 asn1TagCnt = [0xff] ∧
      berValueDec (berValueEnc (leBytes 0xffffffff) 1 asn1TagCnt) asn1TagCnt =
        some (1, leBytes 0xffffffff) := by
  have htag : NumberTag asn1TagCnt := by decide
  exact ⟨htag, by decide, (numbers_roundTrip asn1TagCnt htag 0xffffffff 1).1⟩

end SmithSnmp
