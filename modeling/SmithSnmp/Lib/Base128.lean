import Mathlib.Data.Nat.Digits.Lemmas

/-!
# Numbers to the Base 128

A number as a group of octets, most significant first: seven bits of the number in each of them,
and the top bit set in all but the last one. A group is *minimal* if it does not start with a zero
digit, unless that is all there is.

## Main results

* `value_encode`: the octets of a number stand for it.
* `encode_value`: a minimal group is the one that encodes its number.
-/

namespace SmithSnmp.Lib

open List

theorem forall_octet {P : UInt8 → Prop} (h : ∀ n : Fin 256, P (UInt8.ofFin n)) (b : UInt8) : P b :=
  h b.toFin

/-- The octets without the top bit. -/
theorem top_clear_iff (b : UInt8) : b &&& 0x80 = 0 ↔ b.toNat < 128 := by
  have h : ∀ b : UInt8, b &&& 0x80 = 0 ↔ b.toNat < 128 := forall_octet (by decide +kernel)
  exact h b

namespace Base128

/-- The digit of an octet. -/
def digit (b : UInt8) : ℕ := (b &&& 0x7f).toNat

/-- The number that a group stands for. -/
def value (g : List UInt8) : ℕ := Nat.ofDigits 128 (g.map digit).reverse

/-- A complete group: its last octet is the first one without the top bit. -/
def IsGroup (g : List UInt8) : Prop :=
  ∃ high last, g = high ++ [last] ∧ (∀ b ∈ high, b &&& 0x80 ≠ 0) ∧ last &&& 0x80 = 0

/-- A group without a zero digit in front. -/
structure Minimal (g : List UInt8) : Prop where
  complete : IsGroup g
  lead : g.head? ≠ some 0x80

/-- The group of a number. -/
def encode (n : ℕ) : List UInt8 :=
  ((Nat.digits 128 (n / 128)).map fun d => UInt8.ofNat (d + 128)).reverse ++ [UInt8.ofNat (n % 128)]

/-! ### Digits and octets -/

theorem digit_lt (b : UInt8) : digit b < 128 := by
  have h : ∀ b : UInt8, digit b < 128 := forall_octet (by decide +kernel)
  exact h b

/-- An octet with the top bit comes from its digit. -/
theorem ofNat_digit_of_high {b : UInt8} (h : b &&& 0x80 ≠ 0) : UInt8.ofNat (digit b + 128) = b := by
  have hall : ∀ b : UInt8, b &&& 0x80 ≠ 0 → UInt8.ofNat (digit b + 128) = b :=
    forall_octet (by decide +kernel)
  exact hall b h

/-- An octet without the top bit comes from its digit. -/
theorem ofNat_digit_of_last {b : UInt8} (h : b &&& 0x80 = 0) : UInt8.ofNat (digit b) = b := by
  have hall : ∀ b : UInt8, b &&& 0x80 = 0 → UInt8.ofNat (digit b) = b :=
    forall_octet (by decide +kernel)
  exact hall b h

theorem eq_of_digit_eq_zero {b : UInt8} (h : b &&& 0x80 ≠ 0) (hz : digit b = 0) : b = 0x80 := by
  rw [← ofNat_digit_of_high h, hz]
  rfl

/-- The octet of a digit that others follow. -/
theorem high_ofNat {d : ℕ} (h : d < 128) :
    UInt8.ofNat (d + 128) &&& 0x80 ≠ 0 ∧ digit (UInt8.ofNat (d + 128)) = d := by
  have hall : ∀ d < 128, UInt8.ofNat (d + 128) &&& 0x80 ≠ 0 ∧
      digit (UInt8.ofNat (d + 128)) = d := by decide +kernel
  exact hall d h

theorem last_ofNat {d : ℕ} (h : d < 128) :
    UInt8.ofNat d &&& 0x80 = 0 ∧ digit (UInt8.ofNat d) = d := by
  have hall : ∀ d < 128, UInt8.ofNat d &&& 0x80 = 0 ∧ digit (UInt8.ofNat d) = d := by
    decide +kernel
  exact hall d h

/-! ### Values -/

theorem value_append_last (high : List UInt8) (last : UInt8) :
    value (high ++ [last]) = value high * 128 + digit last := by
  simp only [value, map_append, map_singleton, reverse_append,
    reverse_singleton,
    singleton_append, Nat.ofDigits_cons]
  ring

theorem value_cons (b : UInt8) (g : List UInt8) :
    value (b :: g) = digit b * 128 ^ g.length + value g := by
  simp only [value, map_cons, reverse_cons, Nat.ofDigits_append, Nat.ofDigits_singleton,
    length_reverse, length_map]
  ring

/-! ### The group of a number -/

/-- The octets of a number are a complete group. -/
theorem isGroup_encode (n : ℕ) : IsGroup (encode n) := by
  refine ⟨_, _, rfl, fun b hb => ?_, (last_ofNat (Nat.mod_lt n (by omega))).1⟩
  obtain ⟨d, hd, rfl⟩ := mem_map.mp (mem_reverse.mp hb)
  exact (high_ofNat (Nat.digits_lt_base (by omega) hd)).1

/-- **The octets of a number stand for it.** -/
theorem value_encode (n : ℕ) : value (encode n) = n := by
  have hdigits : ((Nat.digits 128 (n / 128)).map fun d => digit (UInt8.ofNat (d + 128))) =
      Nat.digits 128 (n / 128) := by
    refine (map_congr_left fun d hd => ?_).trans (map_id _)
    exact (high_ofNat (Nat.digits_lt_base (by omega) hd)).2
  have hhigh : value ((Nat.digits 128 (n / 128)).map fun d => UInt8.ofNat (d + 128)).reverse =
      n / 128 := by
    rw [value, map_reverse, reverse_reverse, map_map]
    exact (congrArg _ hdigits).trans (Nat.ofDigits_digits 128 (n / 128))
  rw [encode, value_append_last, hhigh, (last_ofNat (Nat.mod_lt n (by omega))).2]
  omega

/-- **A minimal group encodes its number.** -/
theorem encode_value {g : List UInt8} (h : Minimal g) : encode (value g) = g := by
  obtain ⟨high, last, rfl, hhigh, hlast⟩ := h.complete
  have hdigits : Nat.digits 128 (value high) = (high.map digit).reverse := by
    refine Nat.digits_ofDigits 128 (by omega) _ (fun d hd => ?_) fun hne hzero => ?_
    · obtain ⟨b, -, rfl⟩ := mem_map.mp (mem_reverse.mp hd)
      exact digit_lt b
    · -- the most significant digit is the one in front
      cases high with
      | nil => exact hne rfl
      | cons b high =>
        have hb : digit b = 0 := by simpa using hzero
        have hfirst : b = 0x80 := eq_of_digit_eq_zero (hhigh b mem_cons_self) hb
        exact h.lead (by rw [hfirst]; rfl)
  have hdiv : (value high * 128 + digit last) / 128 = value high := by
    have := digit_lt last
    omega
  have hmod : (value high * 128 + digit last) % 128 = digit last := by
    have := digit_lt last
    omega
  rw [value_append_last, encode, hdiv, hmod, hdigits, ofNat_digit_of_last hlast, map_reverse,
    reverse_reverse, map_map]
  have hsame : high.map ((fun d => UInt8.ofNat (d + 128)) ∘ digit) = high :=
    (map_congr_left fun b hb => ofNat_digit_of_high (hhigh b hb)).trans (map_id high)
  rw [hsame]

/-- A number of one digit. -/
theorem encode_of_lt {n : ℕ} (h : n < 128) : encode n = [UInt8.ofNat n] := by
  rw [encode, Nat.div_eq_of_lt h, Nat.mod_eq_of_lt h]
  rfl

/-- A number of several digits starts with an octet with the top bit. -/
theorem encode_of_le {n : ℕ} (h : 128 ≤ n) : ∃ b g, encode n = b :: g ∧ b &&& 0x80 ≠ 0 := by
  obtain ⟨high, last, hg, hhigh, -⟩ := isGroup_encode n
  cases high with
  | nil =>
    have hv := value_encode n
    have hlt := digit_lt last
    rw [hg, value_append_last] at hv
    simp only [value, map_nil, reverse_nil, Nat.ofDigits_nil] at hv
    omega
  | cons b high => exact ⟨b, high ++ [last], hg, hhigh b mem_cons_self⟩

end Base128

end SmithSnmp.Lib
