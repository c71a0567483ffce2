import Mathlib.Algebra.Ring.Nat
import Mathlib.Data.List.Basic
import Mathlib.Tactic.Common

/-!
# Tag-Length-Value Trees

What a two-pass encoder writes: a tree of values, each with a tag, the length that was
declared for it and its content. `enc` is the code of a length. The first pass adds up
lengths in 32-bit arithmetic (`total`), the second one writes the octets (`bytes`); nothing
but the sums keeps the two in step.

## Main results

* `spanOf_summed`: when every constructed value declares the sum over its parts, the first
  pass counts the octets of the second one and the excess of the primitive values.
* `exact_iff`: when every constructed value declares the sum over its parts, all declared
  lengths are exact and the octets can be counted in 32 bits, if and only if the primitive
  values declare their lengths and the size, in unbounded arithmetic, is below `2 ^ 32`.
-/

namespace SmithSnmp.Lib

open List

/-- A tagged value with its declared length. -/
inductive Tlv where
  | prim (tag : UInt8) (len : UInt32) (content : List UInt8)
  | cons (tag : UInt8) (len : UInt32) (parts : List Tlv)

namespace Tlv

/-- The declared length. -/
def len : Tlv → UInt32
  | prim _ len _ => len
  | cons _ len _ => len

mutual

/-- All primitive values satisfy `leaf`, and all constructed ones `node`. -/
def Forall (leaf : UInt32 → List UInt8 → Prop) (node : UInt32 → List Tlv → Prop) : Tlv → Prop
  | prim _ len content => leaf len content
  | cons _ len parts => node len parts ∧ ForallList leaf node parts

/-- `Forall` for every value of a list. -/
def ForallList (leaf : UInt32 → List UInt8 → Prop) (node : UInt32 → List Tlv → Prop) :
    List Tlv → Prop
  | [] => True
  | t :: ts => Forall leaf node t ∧ ForallList leaf node ts

end

variable (enc : UInt32 → List UInt8)

/-- Tag and length. -/
def header (tag : UInt8) (len : UInt32) : List UInt8 := tag :: enc len

mutual

/-- The octets that are written. -/
def bytes : Tlv → List UInt8
  | prim tag len content => header enc tag len ++ content
  | cons tag len parts => header enc tag len ++ bytesList parts

/-- The octets of a list of values. -/
def bytesList : List Tlv → List UInt8
  | [] => []
  | t :: ts => bytes t ++ bytesList ts

end

mutual

/-- The size of the value when every length is declared right. -/
def size : Tlv → ℕ
  | prim _ _ content => 1 + (enc (UInt32.ofNat content.length)).length + content.length
  | cons _ _ parts => 1 + (enc (UInt32.ofNat (sizeList parts))).length + sizeList parts

/-- The size of a list of values. -/
def sizeList : List Tlv → ℕ
  | [] => 0
  | t :: ts => size t + sizeList ts

end

/-- What the first pass counts for a value of length `len`. -/
def spanOf (len : UInt32) : UInt32 := 1 + UInt32.ofNat (enc len).length + len

/-- What the first pass counts for a list of values. -/
def total : List Tlv → UInt32
  | [] => 0
  | t :: ts => spanOf enc t.len + total ts

mutual

/-- What the primitive values declare beyond the octets of their contents, in 32 bits. -/
def excess : Tlv → UInt32
  | prim _ len content => len - UInt32.ofNat content.length
  | cons _ _ parts => excessList parts

/-- `excess` over the values of a list. -/
def excessList : List Tlv → UInt32
  | [] => 0
  | t :: ts => excess t + excessList ts

end

/-- Every declared length is the number of octets of the content. -/
def Exact : Tlv → Prop :=
  Forall (fun len content => content.length = len.toNat)
    fun len parts => (bytesList enc parts).length = len.toNat

/-- `Exact` for every value of a list. -/
def ExactList : List Tlv → Prop :=
  ForallList (fun len content => content.length = len.toNat)
    fun len parts => (bytesList enc parts).length = len.toNat

/-- Every constructed value declares what the first pass counts for its parts. -/
def Summed : Tlv → Prop := Forall (fun _ _ => True) fun len parts => len = total enc parts

/-- `Summed` for every value of a list. -/
def SummedList : List Tlv → Prop :=
  ForallList (fun _ _ => True) fun len parts => len = total enc parts

/-- Every primitive value declares its length, in 32 bits. -/
def Counted : Tlv → Prop :=
  Forall (fun len content => len = UInt32.ofNat content.length) fun _ _ => True

/-- `Counted` for every value of a list. -/
def CountedList : List Tlv → Prop :=
  ForallList (fun len content => len = UInt32.ofNat content.length) fun _ _ => True

/-! ### Lists of values -/

theorem summed_cons {tag : UInt8} {len : UInt32} {parts : List Tlv} :
    Summed enc (cons tag len parts) ↔ len = total enc parts ∧ SummedList enc parts :=
  Iff.rfl

@[simp] theorem counted_prim {tag : UInt8} {len : UInt32} {content : List UInt8} :
    Counted (prim tag len content) ↔ len = UInt32.ofNat content.length :=
  Iff.rfl

@[simp] theorem counted_cons {tag : UInt8} {len : UInt32} {parts : List Tlv} :
    Counted (cons tag len parts) ↔ CountedList parts := by
  simp [Counted, CountedList, Forall]

@[simp] theorem countedList_nil : CountedList [] := trivial

@[simp] theorem countedList_cons {t : Tlv} {ts : List Tlv} :
    CountedList (t :: ts) ↔ Counted t ∧ CountedList ts :=
  Iff.rfl

theorem exact_cons {tag : UInt8} {len : UInt32} {parts : List Tlv} :
    Exact enc (cons tag len parts) ↔
      (bytesList enc parts).length = len.toNat ∧ ExactList enc parts :=
  Iff.rfl

theorem forallList_append {leaf : UInt32 → List UInt8 → Prop} {node : UInt32 → List Tlv → Prop}
    {ts us : List Tlv} :
    ForallList leaf node (ts ++ us) ↔ ForallList leaf node ts ∧ ForallList leaf node us := by
  induction ts with
  | nil => simp [ForallList]
  | cons t ts ih => simp [ForallList, ih, and_assoc]

theorem forallList_iff {leaf : UInt32 → List UInt8 → Prop} {node : UInt32 → List Tlv → Prop}
    {ts : List Tlv} : ForallList leaf node ts ↔ ∀ t ∈ ts, Forall leaf node t := by
  induction ts with
  | nil => simp [ForallList]
  | cons t ts ih => simp [ForallList, ih]

@[simp] theorem bytesList_nil : bytesList enc [] = [] := rfl

@[simp] theorem bytesList_cons (t : Tlv) (ts : List Tlv) :
    bytesList enc (t :: ts) = bytes enc t ++ bytesList enc ts := rfl

@[simp] theorem bytesList_append (ts us : List Tlv) :
    bytesList enc (ts ++ us) = bytesList enc ts ++ bytesList enc us := by
  induction ts with
  | nil => rfl
  | cons t ts ih => rw [cons_append, bytesList_cons, bytesList_cons, ih, append_assoc]

/-- Every value takes at least one octet. -/
theorem length_le_bytesList (ts : List Tlv) : ts.length ≤ (bytesList enc ts).length := by
  induction ts with
  | nil => simp
  | cons t ts ih =>
    have ht : 1 ≤ (bytes enc t).length := by cases t <;> simp [bytes, header]
    rw [bytesList_cons, length_append, length_cons]
    omega

theorem total_append (ts us : List Tlv) :
    total enc (ts ++ us) = total enc ts + total enc us := by
  induction ts with
  | nil => simp [total]
  | cons t ts ih => simp only [cons_append, total, ih, UInt32.add_assoc]

theorem sizeList_append (ts us : List Tlv) :
    sizeList enc (ts ++ us) = sizeList enc ts + sizeList enc us := by
  induction ts with
  | nil => simp [sizeList]
  | cons t ts ih => simp only [cons_append, sizeList, ih, Nat.add_assoc]

theorem excessList_append (ts us : List Tlv) :
    excessList (ts ++ us) = excessList ts + excessList us := by
  induction ts with
  | nil => simp [excessList]
  | cons t ts ih => simp only [cons_append, excessList, ih, UInt32.add_assoc]

/-! ### The two passes -/

variable {enc}

mutual

/-- **The first pass** counts the octets of the second one and the excess. -/
theorem spanOf_summed : ∀ {t : Tlv}, Summed enc t →
    spanOf enc t.len = UInt32.ofNat (bytes enc t).length + excess t
  | prim tag len content, _ => by
      simp only [spanOf, Tlv.len, bytes, header, length_append, length_cons, excess,
        UInt32.ofNat_add]
      grind
  | cons tag len parts, h => by
      have hlen : len = total enc parts := h.1
      simp only [spanOf, Tlv.len, bytes, header, length_append, length_cons, excess,
        UInt32.ofNat_add]
      rw [hlen, total_summed h.2]
      grind

/-- The first pass over a list of values. -/
theorem total_summed : ∀ {ts : List Tlv}, SummedList enc ts →
    total enc ts = UInt32.ofNat (bytesList enc ts).length + excessList ts
  | [], _ => rfl
  | t :: ts, h => by
      rw [total, spanOf_summed h.1, total_summed h.2, bytesList_cons, length_append,
        UInt32.ofNat_add, excessList]
      ac_rfl

end

/-- The number of octets of a value in terms of its declared length. -/
theorem bytes_length {t : Tlv} (h : Exact enc t) :
    (bytes enc t).length = 1 + (enc t.len).length + t.len.toNat := by
  cases t with
  | prim tag len content =>
    have hlen : content.length = len.toNat := h
    simp only [bytes, header, length_append, length_cons, Tlv.len, hlen]
    omega
  | cons tag len parts =>
    have hlen : (bytesList enc parts).length = len.toNat := h.1
    simp only [bytes, header, length_append, length_cons, Tlv.len, hlen]
    omega

/-- On exact values the first pass counts the octets of the second one. -/
theorem spanOf_eq {t : Tlv} (h : Exact enc t) :
    spanOf enc t.len = UInt32.ofNat (bytes enc t).length := by
  rw [bytes_length h, spanOf, UInt32.ofNat_add, UInt32.ofNat_add, UInt32.ofNat_toNat]
  rfl

/-- The octets of an exact value can be counted in 32 bits when the first pass counts them
right. -/
theorem bytes_length_eq_iff {t : Tlv} (h : Exact enc t) :
    (bytes enc t).length = (spanOf enc t.len).toNat ↔ (bytes enc t).length < 2 ^ 32 := by
  rw [spanOf_eq h, UInt32.toNat_ofNat']
  constructor
  · intro heq
    rw [heq]
    exact Nat.mod_lt _ (by decide)
  · intro hlt
    exact (Nat.mod_eq_of_lt hlt).symm

/-- The first pass counts the octets of the second one. -/
theorem total_eq {ts : List Tlv} (h : ExactList enc ts) :
    total enc ts = UInt32.ofNat (bytesList enc ts).length := by
  induction ts with
  | nil => rfl
  | cons t ts ih =>
    rw [total, spanOf_eq h.1, ih h.2, bytesList_cons, length_append, UInt32.ofNat_add]

mutual

/-- The size of an exact value is the number of its octets. -/
theorem size_eq : ∀ {t : Tlv}, Exact enc t → size enc t = (bytes enc t).length
  | prim tag len content, h => by
      have hlen : content.length = len.toNat := h
      rw [bytes_length h, size, hlen, UInt32.ofNat_toNat, Tlv.len]
  | cons tag len parts, h => by
      have hlen : (bytesList enc parts).length = len.toNat := h.1
      rw [bytes_length h, size, sizeList_eq h.2, hlen, UInt32.ofNat_toNat, Tlv.len]

/-- The size of exact values is the number of their octets. -/
theorem sizeList_eq : ∀ {ts : List Tlv}, ExactList enc ts →
    sizeList enc ts = (bytesList enc ts).length
  | [], _ => rfl
  | t :: ts, h => by
      rw [sizeList, size_eq h.1, sizeList_eq h.2, bytesList_cons, length_append]

end

mutual

/-- Exact values declare the length of their contents. -/
theorem Exact.counted : ∀ {t : Tlv}, Exact enc t → Counted t
  | prim tag len content, h => by
      have hlen : content.length = len.toNat := h
      change len = UInt32.ofNat content.length
      rw [hlen, UInt32.ofNat_toNat]
  | cons tag len parts, h => ⟨trivial, ExactList.counted h.2⟩

/-- Exact values declare the length of their contents. -/
theorem ExactList.counted : ∀ {ts : List Tlv}, ExactList enc ts → CountedList ts
  | [], _ => trivial
  | _ :: _, h => ⟨Exact.counted h.1, ExactList.counted h.2⟩

end

mutual

/-- A value that is declared in 32 bits is exact when its size is below `2 ^ 32`. -/
theorem exact_of_size_lt : ∀ {t : Tlv}, Summed enc t → Counted t → size enc t < 2 ^ 32 →
    Exact enc t
  | prim tag len content, _, hcounted, hsize => by
      have hlen : len = UInt32.ofNat content.length := hcounted
      change content.length = len.toNat
      rw [size] at hsize
      rw [hlen, UInt32.toNat_ofNat_of_lt' (by change _ < 2 ^ 32; omega)]
  | cons tag len parts, hsummed, hcounted, hsize => by
      have hlen : len = total enc parts := hsummed.1
      rw [size] at hsize
      have hparts : ExactList enc parts :=
        exactList_of_size_lt hsummed.2 hcounted.2 (by omega)
      refine ⟨?_, hparts⟩
      change (bytesList enc parts).length = len.toNat
      rw [hlen, total_eq hparts, UInt32.toNat_ofNat_of_lt']
      rw [sizeList_eq hparts] at hsize
      change _ < 2 ^ 32
      omega

/-- Values that are declared in 32 bits are exact when their size is below `2 ^ 32`. -/
theorem exactList_of_size_lt : ∀ {ts : List Tlv}, SummedList enc ts → CountedList ts →
    sizeList enc ts < 2 ^ 32 → ExactList enc ts
  | [], _, _, _ => trivial
  | t :: ts, hsummed, hcounted, hsize => by
      rw [sizeList] at hsize
      exact ⟨exact_of_size_lt hsummed.1 hcounted.1 (by omega),
        exactList_of_size_lt hsummed.2 hcounted.2 (by omega)⟩

end

mutual

/-- A value that is declared in 32 bits is exact when its octets can be counted in 32 bits. -/
theorem exact_of_bytes_lt : ∀ {t : Tlv}, Summed enc t → Counted t →
    (bytes enc t).length < 2 ^ 32 → Exact enc t
  | prim tag len content, _, hcounted, hlt => by
      have hlen : len = UInt32.ofNat content.length := hcounted
      rw [bytes, length_append] at hlt
      change content.length = len.toNat
      rw [hlen, UInt32.toNat_ofNat_of_lt' (by change _ < 2 ^ 32; omega)]
  | cons tag len parts, hsummed, hcounted, hlt => by
      have hlen : len = total enc parts := hsummed.1
      rw [bytes, length_append] at hlt
      have hparts : ExactList enc parts :=
        exactList_of_bytes_lt hsummed.2 hcounted.2 (by omega)
      refine ⟨?_, hparts⟩
      change (bytesList enc parts).length = len.toNat
      rw [hlen, total_eq hparts, UInt32.toNat_ofNat_of_lt' (by change _ < 2 ^ 32; omega)]

/-- Values that are declared in 32 bits are exact when their octets can be counted in 32
bits. -/
theorem exactList_of_bytes_lt : ∀ {ts : List Tlv}, SummedList enc ts → CountedList ts →
    (bytesList enc ts).length < 2 ^ 32 → ExactList enc ts
  | [], _, _, _ => trivial
  | t :: ts, hsummed, hcounted, hlt => by
      rw [bytesList_cons, length_append] at hlt
      exact ⟨exact_of_bytes_lt hsummed.1 hcounted.1 (by omega),
        exactList_of_bytes_lt hsummed.2 hcounted.2 (by omega)⟩

end

/-- **Two passes agree** if and only if the primitive values declare their lengths and the
size is below `2 ^ 32`. -/
theorem exact_iff {t : Tlv} (h : Summed enc t) :
    (Exact enc t ∧ (bytes enc t).length < 2 ^ 32) ↔ Counted t ∧ size enc t < 2 ^ 32 := by
  constructor
  · rintro ⟨hexact, hlt⟩
    exact ⟨hexact.counted, by rwa [size_eq hexact]⟩
  · rintro ⟨hcounted, hlt⟩
    have hexact := exact_of_size_lt h hcounted hlt
    exact ⟨hexact, by rwa [← size_eq hexact]⟩

end Tlv

end SmithSnmp.Lib
