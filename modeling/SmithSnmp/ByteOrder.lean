import SmithSnmp.BerCodec

/-!
# The Byte Order of the Build

The encoders of `core/snmp_encoder.c` put a number in a union and go through its four bytes with an
index: from the last one down on a little-endian machine, from the first one up on a big-endian one.
Which of the two is compiled depends on `LITTLE_ENDIAN`. Here both are given, with the loops of the
source on the bytes in memory, where `none` is an index outside of them.

On a little-endian machine the functions are those of `SmithSnmp.Ber`, and so they are on a
big-endian one, with one exception: the scan of `ber_int_enc_try` goes on to `sizeof(int)` there, so
for `0` and `-1` it looks at the byte behind the union.

## Main results

* `ByteOrder.berIntEnc_image`, `ByteOrder.berUintEnc_image` and so on: either build runs the
  function of `SmithSnmp.Ber`.
* `builds_agree_iff`: where the builds agree.
-/

namespace SmithSnmp

open List Option

/-- The branches of `#ifdef LITTLE_ENDIAN`. -/
inductive ByteOrder
  | little
  | big
  deriving DecidableEq, Repr

/-! ### The loops -/

/-- `while (i > 0 && a.buf[i] == fill) i--` -/
def scanDown (a : List UInt8) (fill : UInt8) : ℕ → Option ℕ
  | 0 => some 0
  | i + 1 => do
      let b ← a[i + 1]?
      if b = fill then scanDown a fill i else some (i + 1)

/-- `while (i < stop && a.buf[i] == fill) i++`, where `stop` is so many bytes ahead. -/
def scanUp (a : List UInt8) (fill : UInt8) : ℕ → ℕ → Option ℕ
  | 0, i => some i
  | ahead + 1, i => do
      let b ← a[i]?
      if b = fill then scanUp a fill ahead (i + 1) else some i

/-- `while (i >= 0) buf[j++] = a.buf[i--]` -/
def copyDown (a : List UInt8) : ℕ → Option (List UInt8)
  | 0 => do
      let b ← a[0]?
      some [b]
  | i + 1 => do
      let b ← a[i + 1]?
      let bs ← copyDown a i
      some (b :: bs)

/-- `while (i < stop) buf[j++] = a.buf[i++]`, where `stop` is so many bytes ahead. -/
def copyUp (a : List UInt8) : ℕ → ℕ → Option (List UInt8)
  | 0, _ => some []
  | ahead + 1, i => do
      let b ← a[i]?
      let bs ← copyUp a ahead (i + 1)
      some (b :: bs)

namespace ByteOrder

/-- The bytes of a number in the union, from the lowest address on. -/
def image (v : UInt32) : ByteOrder → List UInt8
  | .little => leBytes v
  | .big => beBytes v

/-- The scan over bytes that are `fill`. The one that goes up ends at `stop`. -/
def scan (o : ByteOrder) (a : List UInt8) (fill : UInt8) (stop : ℕ) : Option ℕ :=
  match o with
  | .little => scanDown a fill 3
  | .big => scanUp a fill stop 0

/-- The number of bytes that are left at an index: `i + 1` or `sizeof(int) - i`. -/
def left (o : ByteOrder) (i : ℕ) : ℕ :=
  match o with
  | .little => i + 1
  | .big => 4 - i

/-- The bytes that are left at an index. -/
def copy (o : ByteOrder) (a : List UInt8) (i : ℕ) : Option (List UInt8) :=
  match o with
  | .little => copyDown a i
  | .big => copyUp a (4 - i) i

/-! ### The encoders -/

/-- `ber_int_enc_try`. Going up, it is the only scan with the bound `sizeof(int)`. -/
def berIntEncTry (o : ByteOrder) (value : Int32) (a : List UInt8) : Option ℕ :=
  if 0 ≤ value then do
    let i ← o.scan a 0x00 4
    let b ← a[i]?
    some ((if b &&& 0x80 ≠ 0 then 1 else 0) + o.left i)
  else do
    let i ← o.scan a 0xff 4
    let b ← a[i]?
    some ((if b &&& 0x80 = 0 then 1 else 0) + o.left i)

/-- `ber_uint_enc_try` -/
def berUintEncTry (o : ByteOrder) (a : List UInt8) : Option ℕ := do
  let i ← o.scan a 0x00 3
  let b ← a[i]?
  some ((if b &&& 0x80 ≠ 0 then 1 else 0) + o.left i)

/-- `ber_int_enc` -/
def berIntEnc (o : ByteOrder) (value : Int32) (a : List UInt8) : Option (List UInt8) :=
  if 0 ≤ value then do
    let i ← o.scan a 0x00 3
    let b ← a[i]?
    let bs ← o.copy a i
    some (if b &&& 0x80 ≠ 0 then 0x00 :: bs else bs)
  else do
    let i ← o.scan a 0xff 3
    let b ← a[i]?
    let bs ← o.copy a i
    some (if b &&& 0x80 = 0 then 0xff :: bs else bs)

/-- `ber_uint_enc` -/
def berUintEnc (o : ByteOrder) (a : List UInt8) : Option (List UInt8) := do
  let i ← o.scan a 0x00 3
  let b ← a[i]?
  let bs ← o.copy a i
  some (if b &&& 0x80 ≠ 0 then 0x00 :: bs else bs)

/-- `ber_length_enc_try` -/
def berLengthEncTry (o : ByteOrder) (value : UInt32) (a : List UInt8) : Option ℕ := do
  let i ← o.scan a 0x00 3
  some ((if 127 < value then 1 else 0) + o.left i)

/-- `ber_length_enc` -/
def berLengthEnc (o : ByteOrder) (value : UInt32) (a : List UInt8) : Option (List UInt8) := do
  let i ← o.scan a 0x00 3
  let bs ← o.copy a i
  some (if 127 < value then (0x80 ||| UInt8.ofNat (o.left i)) :: bs else bs)

end ByteOrder

/-! ### What the loops find -/

/-- Going down, the scan ends where `dropLead` does. -/
theorem scanDown_reverse (fill : UInt8) (bs tail : List UInt8) :
    scanDown (bs.reverse ++ tail) fill (bs.length - 1) =
      some ((dropLead fill bs).length - 1) := by
  induction bs generalizing tail with
  | nil => rfl
  | cons b bs ih =>
    cases bs with
    | nil => rfl
    | cons c bs =>
      have hget : ((b :: c :: bs).reverse ++ tail)[bs.length + 1]? = some b := by simp
      have hlen : (b :: c :: bs).length - 1 = bs.length + 1 := rfl
      rw [hlen, scanDown, hget, dropLead, bind_eq_bind, bind_some]
      split
      · -- one byte less, which lies behind the others in memory
        rw [reverse_cons, append_assoc]
        exact ih ([b] ++ tail)
      · rfl

/-- Going up, the scan ends where `dropLead` does, if its bound is the last byte. -/
theorem scanUp_append (fill : UInt8) (pre bs : List UInt8) :
    scanUp (pre ++ bs) fill (bs.length - 1) pre.length =
      some (pre.length + (bs.length - (dropLead fill bs).length)) := by
  induction bs generalizing pre with
  | nil => rfl
  | cons b bs ih =>
    cases bs with
    | nil => rfl
    | cons c bs =>
      have hget : (pre ++ b :: c :: bs)[pre.length]? = some b := by simp
      have hlen : (b :: c :: bs).length - 1 = bs.length + 1 := rfl
      have hnext := ih (pre ++ [b])
      have hle := (dropLead_length fill (cons_ne_nil c bs)).2
      rw [hlen, scanUp, hget, dropLead, bind_eq_bind, bind_some]
      split
      · rw [length_append, length_singleton, append_assoc] at hnext
        refine hnext.trans (congrArg some ?_)
        rw [length_cons (a := b)]
        omega
      · simp

/-- The same with the bound behind the last byte, if there is one to stop at. -/
theorem scanUp_append_of_ne {fill : UInt8} (pre : List UInt8) {bs : List UInt8}
    (h : ∃ b ∈ bs, b ≠ fill) :
    scanUp (pre ++ bs) fill bs.length pre.length =
      some (pre.length + (bs.length - (dropLead fill bs).length)) := by
  induction bs generalizing pre with
  | nil =>
    obtain ⟨b, hb, -⟩ := h
    cases hb
  | cons b bs ih =>
    have hget : (pre ++ b :: bs)[pre.length]? = some b := by simp
    rw [length_cons, scanUp, hget, bind_eq_bind, bind_some]
    by_cases hb : b = fill
    · have hrest : ∃ b ∈ bs, b ≠ fill := by
        obtain ⟨c, hc, hne⟩ := h
        rcases mem_cons.mp hc with rfl | hc
        · exact absurd hb hne
        · exact ⟨c, hc, hne⟩
      cases bs with
      | nil =>
        obtain ⟨c, hc, -⟩ := hrest
        cases hc
      | cons c bs =>
        have hnext := ih (pre ++ [b]) hrest
        have hle := (dropLead_length fill (cons_ne_nil c bs)).2
        rw [length_append, length_singleton, append_assoc] at hnext
        rw [if_pos hb, dropLead, if_pos hb]
        refine hnext.trans (congrArg some ?_)
        omega
    · have hstay : dropLead fill (b :: bs) = b :: bs := by
        cases bs with
        | nil => rfl
        | cons c bs => rw [dropLead, if_neg hb]
      rw [if_neg hb, hstay, length_cons, Nat.sub_self, Nat.add_zero]

/-- What `dropLead` leaves are the last bytes. -/
theorem dropLead_eq_drop (fill : UInt8) (bs : List UInt8) :
    dropLead fill bs = bs.drop (bs.length - (dropLead fill bs).length) := by
  have h := congrArg (List.drop (bs.length - (dropLead fill bs).length))
    (replicate_append_dropLead fill bs)
  rwa [drop_left' length_replicate] at h

/-- All bytes of a number are `fill` for one number only. -/
theorem exists_ne_fill {fill : UInt8} {v w : UInt32} (hw : beBytes w = List.replicate 4 fill)
    (hne : v ≠ w) : ∃ b ∈ beBytes v, b ≠ fill := by
  by_contra hall
  have hrep : beBytes v = List.replicate 4 fill :=
    eq_replicate_iff.mpr ⟨rfl, fun b hb => by_contra fun hc => hall ⟨b, hb, hc⟩⟩
  have hshift := shiftIn_beBytes v
  rw [hrep, ← hw, shiftIn_beBytes] at hshift
  exact hne hshift.symm

namespace ByteOrder

/-- The index of the last `k` bytes of a number. -/
def place (o : ByteOrder) (k : ℕ) : ℕ :=
  match o with
  | .little => k - 1
  | .big => 4 - k

/-- At the index `i` of the bytes `a` stand the bytes `bs`, most significant first. -/
structure Stand (o : ByteOrder) (a : List UInt8) (i : ℕ) (bs : List UInt8) : Prop where
  get : a[i]? = some (bs.headD 0)
  left : o.left i = bs.length
  copy : o.copy a i = some bs

theorem stand_drop (o : ByteOrder) (v : UInt32) {k : ℕ} (hpos : 1 ≤ k) (hle : k ≤ 4) :
    o.Stand (o.image v) (o.place k) ((beBytes v).drop (4 - k)) := by
  cases o with
  | little | big => interval_cases k <;> exact ⟨rfl, rfl, rfl⟩

/-- Where `dropLead` ends stand the bytes that it leaves. -/
theorem stand_dropLead (o : ByteOrder) (v : UInt32) (fill : UInt8) :
    o.Stand (o.image v) (o.place (dropLead fill (beBytes v)).length)
      (dropLead fill (beBytes v)) := by
  obtain ⟨hpos, hle⟩ := dropLead_length fill (beBytes_ne_nil v)
  have hdrop : (beBytes v).drop (4 - (dropLead fill (beBytes v)).length) =
      dropLead fill (beBytes v) := (dropLead_eq_drop fill (beBytes v)).symm
  have h := o.stand_drop v hpos hle
  rwa [hdrop] at h

/-- The scan with the bound `sizeof(int) - 1` ends where `dropLead` does, in either order. -/
theorem scan_image (o : ByteOrder) (v : UInt32) (fill : UInt8) :
    o.scan (o.image v) fill 3 = some (o.place (dropLead fill (beBytes v)).length) := by
  cases o with
  | little =>
    have h := scanDown_reverse fill (beBytes v) []
    rwa [beBytes, reverse_reverse, append_nil] at h
  | big =>
    have h := scanUp_append fill [] (beBytes v)
    rwa [nil_append, length_nil, Nat.zero_add] at h

/-- The scan with the bound `sizeof(int)` does so if there is a byte to stop at. -/
theorem scan_image_of_ne (o : ByteOrder) {v : UInt32} {fill : UInt8}
    (h : ∃ b ∈ beBytes v, b ≠ fill) :
    o.scan (o.image v) fill 4 = some (o.place (dropLead fill (beBytes v)).length) := by
  cases o with
  | little => exact scan_image .little v fill
  | big =>
    have h := scanUp_append_of_ne [] h
    rwa [nil_append, length_nil, Nat.zero_add] at h

/-! ### Either build -/

/-- `ber_uint_enc` of either build. -/
theorem berUintEnc_image (o : ByteOrder) (v : UInt32) :
    o.berUintEnc (o.image v) = some (SmithSnmp.berUintEnc v) := by
  obtain ⟨hget, -, hcopy⟩ := o.stand_dropLead v 0x00
  simp only [berUintEnc, scan_image, bind_eq_bind, bind_some, hget, hcopy]
  rfl

/-- `ber_uint_enc_try` of either build. -/
theorem berUintEncTry_image (o : ByteOrder) (v : UInt32) :
    o.berUintEncTry (o.image v) = some (SmithSnmp.berUintEncTry v) := by
  obtain ⟨hget, hleft, -⟩ := o.stand_dropLead v 0x00
  simp only [berUintEncTry, scan_image, bind_eq_bind, bind_some, hget, hleft]
  rfl

/-- `ber_length_enc` of either build. -/
theorem berLengthEnc_image (o : ByteOrder) (v : UInt32) :
    o.berLengthEnc v (o.image v) = some (SmithSnmp.berLengthEnc v) := by
  obtain ⟨-, hleft, hcopy⟩ := o.stand_dropLead v 0x00
  simp only [berLengthEnc, scan_image, bind_eq_bind, bind_some, hleft, hcopy]
  rfl

/-- `ber_length_enc_try` of either build. -/
theorem berLengthEncTry_image (o : ByteOrder) (v : UInt32) :
    o.berLengthEncTry v (o.image v) = some (SmithSnmp.berLengthEncTry v) := by
  obtain ⟨-, hleft, -⟩ := o.stand_dropLead v 0x00
  simp only [berLengthEncTry, scan_image, bind_eq_bind, bind_some, hleft]
  rfl

/-- `ber_int_enc` of either build. -/
theorem berIntEnc_image (o : ByteOrder) (value : Int32) :
    o.berIntEnc value (o.image value.toUInt32) = some (SmithSnmp.berIntEnc value) := by
  rw [berIntEnc, SmithSnmp.berIntEnc]
  split
  · obtain ⟨hget, -, hcopy⟩ := o.stand_dropLead value.toUInt32 0x00
    simp only [scan_image, bind_eq_bind, bind_some, hget, hcopy]
  · obtain ⟨hget, -, hcopy⟩ := o.stand_dropLead value.toUInt32 0xff
    simp only [scan_image, bind_eq_bind, bind_some, hget, hcopy]

/-- `ber_int_enc_try` of either build, for numbers with a byte to stop at. -/
theorem berIntEncTry_image (o : ByteOrder) (value : Int32) (hzero : value.toUInt32 ≠ 0)
    (hones : value.toUInt32 ≠ 0xffffffff) :
    o.berIntEncTry value (o.image value.toUInt32) = some (SmithSnmp.berIntEncTry value) := by
  rw [berIntEncTry, SmithSnmp.berIntEncTry]
  split
  · have hbytes : beBytes 0 = List.replicate 4 0x00 := by decide
    obtain ⟨hget, hleft, -⟩ := o.stand_dropLead value.toUInt32 0x00
    simp only [o.scan_image_of_ne (exists_ne_fill hbytes hzero), bind_eq_bind,
      bind_some, hget, hleft]
  · have hbytes : beBytes 0xffffffff = List.replicate 4 0xff := by decide
    obtain ⟨hget, hleft, -⟩ := o.stand_dropLead value.toUInt32 0xff
    simp only [o.scan_image_of_ne (exists_ne_fill hbytes hones), bind_eq_bind,
      bind_some, hget, hleft]

end ByteOrder

/-- Either build of a function stays inside the bytes of a number, and both have the same result. -/
def BuildsAgree {α : Type} (f : ByteOrder → List UInt8 → Option α) (v : UInt32) : Prop :=
  ∃ r, ∀ o : ByteOrder, f o (o.image v) = some r

/-- **The two builds.** For every number, the three encoders and the sizes of unsigned numbers and
lengths stay inside its bytes and agree in both byte orders; the size of integers does so if and
only if the number is neither `0` nor `-1`. -/
theorem builds_agree_iff (v : UInt32) :
    (BuildsAgree (fun o => o.berIntEnc v.toInt32) v ∧ BuildsAgree ByteOrder.berUintEnc v ∧
      BuildsAgree (fun o => o.berLengthEnc v) v ∧ BuildsAgree ByteOrder.berUintEncTry v ∧
      BuildsAgree (fun o => o.berLengthEncTry v) v) ∧
    (BuildsAgree (fun o => o.berIntEncTry v.toInt32) v ↔ v ≠ 0 ∧ v ≠ 0xffffffff) := by
  have hback : v.toInt32.toUInt32 = v := UInt32.toUInt32_toInt32 v
  have hint : ∀ o : ByteOrder,
      o.berIntEnc v.toInt32 (o.image v) = some (berIntEnc v.toInt32) := by
    intro o
    have h := o.berIntEnc_image v.toInt32
    rwa [hback] at h
  refine ⟨⟨⟨_, hint⟩, ⟨_, fun o => o.berUintEnc_image v⟩, ⟨_, fun o => o.berLengthEnc_image v⟩,
    ⟨_, fun o => o.berUintEncTry_image v⟩, ⟨_, fun o => o.berLengthEncTry_image v⟩⟩, ?_, ?_⟩
  · -- of the two numbers the scan leaves no byte
    rintro ⟨r, hr⟩
    constructor
    · rintro rfl
      have hout : ByteOrder.big.berIntEncTry (0 : UInt32).toInt32 (ByteOrder.big.image 0) =
          none := by decide
      exact some_ne_none r ((hr .big).symm.trans hout)
    · rintro rfl
      have hout : ByteOrder.big.berIntEncTry (0xffffffff : UInt32).toInt32
          (ByteOrder.big.image 0xffffffff) = none := by decide
      exact some_ne_none r ((hr .big).symm.trans hout)
  · rintro ⟨hzero, hones⟩
    refine ⟨berIntEncTry v.toInt32, fun o => ?_⟩
    have h := o.berIntEncTry_image v.toInt32 (by rwa [hback]) (by rwa [hback])
    rwa [hback] at h

/-- `0` and `-1` on a big-endian machine: the byte behind the union is read, and if it looks like
the ones before it the size is zero. -/
theorem berIntEncTry_builds_differ :
    ByteOrder.big.berIntEncTry 0 (ByteOrder.big.image 0) = none ∧
      ByteOrder.big.berIntEncTry 0 (ByteOrder.big.image 0 ++ [0x00]) = some 0 ∧
      ByteOrder.little.berIntEncTry 0 (ByteOrder.little.image 0) = some 1 ∧
      ByteOrder.big.berIntEncTry (-1) (ByteOrder.big.image 0xffffffff) = none ∧
      ByteOrder.big.berIntEncTry (-1) (ByteOrder.big.image 0xffffffff ++ [0xff]) = some 0 ∧
      ByteOrder.little.berIntEncTry (-1) (ByteOrder.little.image 0xffffffff) = some 1 := by
  decide

end SmithSnmp
