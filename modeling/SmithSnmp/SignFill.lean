import SmithSnmp.BerMeaning
import SmithSnmp.DecodeJournal
import SmithSnmp.Walk

/-!
# Filling with the Sign

`ber_int_dec` fills a word with ones before it shifts in the octets of a negative number. The loop
`j < sizeof(int) - len` counts up to a difference in `size_t`, so for more than four octets its
bound wraps around, be that type of 32 or of 64 bits, to a number that `j` never gets to: these are
the runs for which `signRounds` has no result (`signRounds_eq`).

The integers are those of the message itself, from the journal of the decoder, and the values of
the varbinds when the request is processed.
-/

namespace SmithSnmp

open Lib

variable {σ : Type}

/-! ### The loop -/

/-- The `size_t` of the machine, which is the type of `sizeof(int)`. -/
inductive SizeT
  | bits32
  | bits64
  deriving DecidableEq, Repr

/-- `sizeof(int) - len` -/
def SizeT.fillBound (len : UInt32) : SizeT → ℕ
  | .bits32 => ((4 : UInt32) - len).toNat
  | .bits64 => ((4 : UInt64) - len.toUInt64).toNat

/-- The rounds that the bound of the loop asks for, for so many octets, of which the first is
given. -/
def signFill (m : SizeT) (len : UInt32) : Option UInt8 → ℕ
  | some b => if b &&& 0x80 ≠ 0 then m.fillBound len else 0
  | none => 0

/-- The difference in natural numbers, as long as it does not wrap around. -/
theorem SizeT.fillBound_of_le (m : SizeT) {len : UInt32} (h : len.toNat ≤ 4) :
    m.fillBound len = 4 - len.toNat := by
  cases m with
  | bits32 => exact UInt32.toNat_sub_of_le _ _ (UInt32.le_iff_toNat_le.mpr h)
  | bits64 =>
    have hle : len.toUInt64 ≤ 4 := UInt64.le_iff_toNat_le.mpr (by simpa using h)
    rw [SizeT.fillBound, UInt64.toNat_sub_of_le _ _ hle, UInt32.toNat_toUInt64]
    rfl

/-- It wraps around to more than four, and to more than `INT_MAX` for the sizes of messages. -/
theorem SizeT.lt_fillBound (m : SizeT) {len : UInt32} (h : 4 < len.toNat) :
    4 < m.fillBound len ∧ (len.toNat < 2 ^ 31 → 2 ^ 31 < m.fillBound len) := by
  have hlen := len.toNat_lt
  cases m with
  | bits32 =>
    have hdiff : ((4 : UInt32) - len).toNat = (2 ^ 32 - len.toNat + 4) % 2 ^ 32 :=
      UInt32.toNat_sub _ _
    rw [SizeT.fillBound, hdiff]
    omega
  | bits64 =>
    have hdiff : ((4 : UInt64) - len.toUInt64).toNat = (2 ^ 64 - len.toNat + 4) % 2 ^ 64 := by
      rw [UInt64.toNat_sub, UInt32.toNat_toUInt64]
      rfl
    rw [SizeT.fillBound, hdiff]
    omega

/-- **The loop as it is written.** On both machines the rounds of `ber_int_dec` are those that the
bound asks for, as long as `j`, which is an `int`, can count them. -/
theorem signRounds_eq (m : SizeT) {len : UInt32} (hlen : len.toNat < 2 ^ 31) (b : UInt8) :
    signRounds b len.toNat =
      if signFill m len (some b) < 2 ^ 31 then some (signFill m len (some b)) else none := by
  by_cases hsign : b &&& 0x80 = 0
  · simp [signRounds, signFill, hsign]
  · rw [signRounds, if_neg hsign, signFill, if_pos hsign]
    by_cases hshort : len.toNat ≤ 4
    · rw [if_pos hshort, m.fillBound_of_le hshort, if_pos (by omega)]
    · have hlt := (m.lt_fillBound (not_le.mp hshort)).2 hlen
      rw [if_neg hshort, if_neg (by omega)]

/-- There are at most four rounds if and only if the difference does not wrap around. -/
theorem signFill_le_iff (m : SizeT) (len : UInt32) (first : Option UInt8) :
    signFill m len first ≤ 4 ↔ ∀ b ∈ first, b &&& 0x80 ≠ 0 → len.toNat ≤ 4 := by
  cases first with
  | none => simp [signFill]
  | some b =>
    by_cases hsign : b &&& 0x80 = 0
    · simp [signFill, hsign]
    · simp only [signFill, ne_eq, hsign, not_false_eq_true, if_true, Option.mem_some_iff,
        forall_eq', forall_const]
      constructor
      · intro hle
        by_contra hlong
        have hlt := (m.lt_fillBound (not_le.mp hlong)).1
        omega
      · intro hle
        rw [m.fillBound_of_le hle]
        omega

/-! ### The integers of a message -/

/-- A loop over varbinds gets to the varbind when it comes to the end of those before. -/
def GetsTo {α : Type} (loop : List VarBind → AgentM σ α) (vbs : List VarBind) (w : World Event σ)
    (vb : VarBind) : Prop :=
  ∃ before after, vbs = before ++ vb :: after ∧ (loop before w).1.isSome

/-- The varbinds whose values are decoded when the request is processed. -/
def Loads (ag : Agent σ) (sdg : SnmpDatagram) (w : World Event σ) (vb : VarBind) : Prop :=
  let pduType := sdg.pduHdr.pduType
  let sdg := markResponse sdg
  if pduType = snmpReqGet then
    GetsTo (fun vbs => readLoop (mibGet ag) vbs 0 sdg { request := .get }) sdg.vbInList w vb
  else if pduType = snmpReqGetnext then
    GetsTo (fun vbs => readLoop (mibGetnext ag) vbs 0 sdg { request := .getnext }) sdg.vbInList w vb
  else if pduType = snmpReqSet then
    GetsTo (fun vbs => snmpSetLoop ag vbs 0 sdg { request := .set }) sdg.vbInList w vb
  else if pduType = snmpReqBulkget then
    let repeats := sdg.pduHdr.errIdx.toUInt32.toNat
    let sdg := { sdg with pduHdr := { sdg.pduHdr with errIdx := 0 } }
    -- some rounds are complete, and the next one gets to the varbind
    ∃ rounds < repeats, ∃ st w', snmpBulkgetLoop ag rounds
        { vbs := sdg.vbInList, sdg := sdg, ret := { request := .getnext } } w = (some st, w') ∧
      GetsTo (fun vbs => snmpBulkgetRow ag [] vbs st) st.vbs w' vb
  else False

/-- The runs of `ber_int_dec` for a received message: those of the decoder, and those for the values
of the varbinds. -/
inductive IntDecoded (cr : Crypto) (ag : Agent σ) (b : List UInt8) (w : World Event σ) :
    UInt32 → Option UInt8 → Prop
  | message (len : UInt32) (first : Option UInt8)
      (h : DecodeNote.int len first ∈ (Noted.snmpRecv cr ag.views.users b).1) :
      IntDecoded cr ag b w len first
  | value (sdg : SnmpDatagram) (vb : VarBind) (h : snmpRecv cr ag.views.users b = .ok sdg)
      (hload : Loads ag sdg w vb) (htype : vb.valueType = asn1TagInt ∨ vb.valueType = asn1TagCnt)
      (hne : vb.value ≠ []) :
      IntDecoded cr ag b w (UInt32.ofNat vb.value.length) vb.value.head?

end SmithSnmp
