import Mathlib.Data.List.GetD
import SmithSnmp.Asn1

/-!
# Numbers in Memory

Numbers of 16 and 32 bits as bytes in memory on a little-endian host, and the byte swaps of
`byteswap.h`.

## Main results

* `peekWord_leBytes`, `leBytes_peekWord`: four bytes are one number, both ways.
* `leBytes_bswap32`: a byte swap turns the bytes around.
* `peekOid_flatMap_leBytes`: an OID in memory is read back.
-/

namespace SmithSnmp

open List

variable {bs : List UInt8} {n : ℕ}

/-- The bytes of a 16-bit number in memory, least significant first. -/
def leBytes16 (v : UInt16) : List UInt8 := [v.toUInt8, (v >>> 8).toUInt8]

/-- The 16-bit number at the start of some memory, zero behind its end. -/
def peekHalf (mem : List UInt8) : UInt16 :=
  (mem.getD 0 0).toUInt16 ||| ((mem.getD 1 0).toUInt16 <<< 8)

/-- `bswap_16` -/
def bswap16 (x : UInt16) : UInt16 := peekHalf (leBytes16 x).reverse

/-- `bswap_32` -/
def bswap32 (x : UInt32) : UInt32 := peekWord (leBytes x).reverse

/-! ### Bytes of numbers -/

@[simp] theorem leBytes_length (v : UInt32) : (leBytes v).length = 4 := rfl

@[simp] theorem leBytes16_length (v : UInt16) : (leBytes16 v).length = 2 := rfl

/-- Four bytes of a 32-bit number. -/
theorem peekWord_toNat (a b c d : UInt8) (rest : List UInt8) :
    (peekWord (a :: b :: c :: d :: rest)).toNat =
      a.toNat + 2 ^ 8 * (b.toNat + 2 ^ 8 * (c.toNat + 2 ^ 8 * d.toNat)) := by
  have ha := a.toNat_lt
  have hb := b.toNat_lt
  have hc := c.toNat_lt
  have hd := d.toNat_lt
  -- each byte is put above the ones before it
  have h₁ := Nat.two_pow_add_eq_or_of_lt (show a.toNat < 2 ^ 8 by omega) b.toNat
  have h₂ := Nat.two_pow_add_eq_or_of_lt
    (show 2 ^ 8 * b.toNat + a.toNat < 2 ^ 16 by omega) c.toNat
  have h₃ := Nat.two_pow_add_eq_or_of_lt
    (show 2 ^ 16 * c.toNat + (2 ^ 8 * b.toNat + a.toNat) < 2 ^ 24 by omega) d.toNat
  simp only [peekWord, getD_cons_zero, getD_cons_succ, UInt32.toNat_or,
    UInt32.toNat_shiftLeft, UInt8.toNat_toUInt32, UInt32.reduceToNat, Nat.reduceMod,
    Nat.shiftLeft_eq]
  rw [Nat.mod_eq_of_lt (show b.toNat * 2 ^ 8 < 2 ^ 32 by omega),
    Nat.mod_eq_of_lt (show c.toNat * 2 ^ 16 < 2 ^ 32 by omega),
    Nat.mod_eq_of_lt (show d.toNat * 2 ^ 24 < 2 ^ 32 by omega), Nat.mul_comm b.toNat,
    Nat.mul_comm c.toNat, Nat.mul_comm d.toNat, Nat.or_comm a.toNat, ← h₁,
    Nat.or_comm _ (2 ^ 16 * c.toNat), ← h₂, Nat.or_comm _ (2 ^ 24 * d.toNat), ← h₃]
  omega

/-- Two bytes of a 16-bit number. -/
theorem peekHalf_toNat (a b : UInt8) (rest : List UInt8) :
    (peekHalf (a :: b :: rest)).toNat = a.toNat + 2 ^ 8 * b.toNat := by
  have ha := a.toNat_lt
  have hb := b.toNat_lt
  have h₁ := Nat.two_pow_add_eq_or_of_lt (show a.toNat < 2 ^ 8 by omega) b.toNat
  simp only [peekHalf, getD_cons_zero, getD_cons_succ, UInt16.toNat_or,
    UInt16.toNat_shiftLeft, UInt8.toNat_toUInt16, UInt16.reduceToNat, Nat.reduceMod,
    Nat.shiftLeft_eq]
  rw [Nat.mod_eq_of_lt (show b.toNat * 2 ^ 8 < 2 ^ 16 by omega), Nat.mul_comm b.toNat,
    Nat.or_comm a.toNat, ← h₁]
  omega

/-- A number is read back from its bytes and what follows them. -/
@[simp] theorem peekWord_leBytes_append (v : UInt32) (rest : List UInt8) :
    peekWord (leBytes v ++ rest) = v := by
  have h := v.toNat_lt
  rw [← UInt32.toNat_inj, leBytes]
  simp only [cons_append, nil_append, peekWord_toNat, UInt32.toNat_toUInt8,
    UInt32.toNat_shiftRight, UInt32.reduceToNat, Nat.reduceMod, Nat.shiftRight_eq_div_pow]
  omega

/-- A 16-bit number is read back from its bytes and what follows them. -/
@[simp] theorem peekHalf_leBytes16_append (v : UInt16) (rest : List UInt8) :
    peekHalf (leBytes16 v ++ rest) = v := by
  have h := v.toNat_lt
  rw [← UInt16.toNat_inj, leBytes16]
  simp only [cons_append, nil_append, peekHalf_toNat, UInt16.toNat_toUInt8,
    UInt16.toNat_shiftRight, UInt16.reduceToNat, Nat.reduceMod, Nat.shiftRight_eq_div_pow]
  omega

/-- A number is read back from its bytes. -/
@[simp] theorem peekWord_leBytes (v : UInt32) : peekWord (leBytes v) = v :=
  peekWord_leBytes_append v []

/-- A 16-bit number is read back from its bytes. -/
@[simp] theorem peekHalf_leBytes16 (v : UInt16) : peekHalf (leBytes16 v) = v :=
  peekHalf_leBytes16_append v []

/-- Four bytes are those of the number they make up. -/
theorem leBytes_peekWord (h : bs.length = 4) : leBytes (peekWord bs) = bs := by
  match bs, h with
  | [a, b, c, d], _ =>
    have ha := a.toNat_lt
    have hb := b.toNat_lt
    have hc := c.toNat_lt
    have hd := d.toNat_lt
    simp only [leBytes, List.cons.injEq, ← UInt8.toNat_inj, UInt32.toNat_toUInt8,
      UInt32.toNat_shiftRight, UInt32.reduceToNat, Nat.reduceMod, Nat.shiftRight_eq_div_pow,
      peekWord_toNat, and_true]
    refine ⟨?_, ?_, ?_, ?_⟩ <;> omega

/-- Two bytes are those of the number they make up. -/
theorem leBytes16_peekHalf (h : bs.length = 2) : leBytes16 (peekHalf bs) = bs := by
  match bs, h with
  | [a, b], _ =>
    have ha := a.toNat_lt
    have hb := b.toNat_lt
    simp only [leBytes16, List.cons.injEq, ← UInt8.toNat_inj, UInt16.toNat_toUInt8,
      UInt16.toNat_shiftRight, UInt16.reduceToNat, Nat.reduceMod, Nat.shiftRight_eq_div_pow,
      peekHalf_toNat, and_true]
    refine ⟨?_, ?_⟩ <;> omega

/-! ### Byte swaps -/

/-- A byte swap turns the bytes around. -/
theorem leBytes_bswap32 (x : UInt32) : leBytes (bswap32 x) = (leBytes x).reverse :=
  leBytes_peekWord (by simp)

/-- A byte swap of 16 bits turns the bytes around. -/
theorem leBytes16_bswap16 (x : UInt16) : leBytes16 (bswap16 x) = (leBytes16 x).reverse :=
  leBytes16_peekHalf (by simp)

/-- Swapping twice changes nothing. -/
@[simp] theorem bswap32_bswap32 (x : UInt32) : bswap32 (bswap32 x) = x := by
  rw [bswap32, leBytes_bswap32, reverse_reverse, peekWord_leBytes]

/-- Swapping twice changes nothing. -/
@[simp] theorem bswap16_bswap16 (x : UInt16) : bswap16 (bswap16 x) = x := by
  rw [bswap16, leBytes16_bswap16, reverse_reverse, peekHalf_leBytes16]

/-! ### Memory -/

theorem peekBytes_of_le {mem : List UInt8} (h : n ≤ mem.length) : peekBytes mem n = mem.take n := by
  rw [peekBytes, Nat.sub_eq_zero_of_le h, replicate_zero, append_nil]

theorem peekWord_append (h : 4 ≤ bs.length) (tail : List UInt8) :
    peekWord (bs ++ tail) = peekWord bs := by
  have hget : ∀ i, i < 4 → (bs ++ tail).getD i 0 = bs.getD i 0 := fun i hi =>
    getD_append bs tail 0 i (by omega)
  simp only [peekWord, hget 0 (by decide), hget 1 (by decide), hget 2 (by decide),
    hget 3 (by decide)]

theorem peekBytes_append (h : n ≤ bs.length) (tail : List UInt8) :
    peekBytes (bs ++ tail) n = peekBytes bs n := by
  rw [peekBytes, peekBytes, take_append_of_le_length h, length_append,
    Nat.sub_eq_zero_of_le h, Nat.sub_eq_zero_of_le (by omega)]

theorem peekOid_append (h : 4 * n ≤ bs.length) (tail : List UInt8) :
    peekOid (bs ++ tail) n = peekOid bs n := by
  induction n generalizing bs with
  | zero => rfl
  | succ n ih =>
    have hdrop : 4 * n ≤ (bs.drop 4).length := by
      rw [length_drop]
      omega
    rw [peekOid, peekOid, peekWord_append (by omega),
      drop_append_of_le_length (by omega), ih hdrop]

/-- All bytes of some memory. -/
@[simp] theorem peekBytes_self (bs : List UInt8) : peekBytes bs bs.length = bs := by
  rw [peekBytes_of_le (Nat.le_refl _), take_length]

@[simp] theorem flatMap_leBytes_length (oid : Oid) :
    (oid.flatMap leBytes).length = 4 * oid.length := by
  simp [length_flatMap, Nat.mul_comm]

/-- An OID in memory is read back. -/
theorem peekOid_flatMap_leBytes (oid : Oid) (rest : List UInt8) :
    peekOid (oid.flatMap leBytes ++ rest) oid.length = oid := by
  induction oid with
  | nil => rfl
  | cons subId oid ih =>
    rw [flatMap_cons, append_assoc, length_cons, peekOid, peekWord_leBytes_append]
    exact congrArg _ ih

end SmithSnmp
