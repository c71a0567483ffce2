import SmithSnmp.Agreement
import SmithSnmp.SearchResults

/-!
# The Error Fields of a Response

The response to a request is built in the datagram of the request, so the error fields of its header
are those of the request until a varbind fails. A request has zero there, but for the non-repeaters
and the max-repetitions of GETBULK; GETBULK sets the second one to zero and leaves the first one.
With an error status other than zero in the request, no error is reported any more.

## Main results

* `reportErrors_eq`: the header behind the search results of all varbinds.
* `errorFields_iff`: when the error fields tell the first failure.
-/

namespace SmithSnmp

open Lib Option

variable {σ : Type}

/-- The position of the first error, from one on, and its status. -/
def firstFailure : List Int32 → Option (ℕ × Int32)
  | [] => none
  | e :: es => if e ≠ 0 then some (1, e) else (firstFailure es).map fun f => (f.1 + 1, f.2)

theorem firstFailure_ne_zero {es : List Int32} {pos : ℕ} {e : Int32}
    (h : firstFailure es = some (pos, e)) : e ≠ 0 := by
  induction es generalizing pos with
  | nil => cases h
  | cons e' es ih =>
    rw [firstFailure] at h
    split at h
    · next hne =>
        obtain ⟨-, rfl⟩ := Prod.mk.inj (some.inj h)
        exact hne
    · obtain ⟨⟨pos', e''⟩, hrest, heq⟩ := map_eq_some_iff.mp h
      obtain ⟨-, rfl⟩ := Prod.mk.inj heq
      exact ih hrest

/-- A header with an error stays as it is. -/
theorem reportErrors_of_ne (vbInCnt : UInt32) (es : List Int32) {hdr : PduHdr}
    (h : hdr.errStat ≠ 0) : reportErrors vbInCnt es hdr = hdr := by
  induction es generalizing vbInCnt with
  | nil => rfl
  | cons e es ih =>
    have hkeep : reportError e (vbInCnt + 1) hdr = hdr := by simp [reportError, h]
    rw [reportErrors, hkeep, ih]

/-- **The header behind some varbinds** has the first failure, if there is one. -/
theorem reportErrors_eq (vbInCnt : UInt32) (es : List Int32) {hdr : PduHdr} (h : hdr.errStat = 0) :
    reportErrors vbInCnt es hdr =
      match firstFailure es with
      | none => hdr
      | some (pos, e) =>
        { hdr with errStat := e, errIdx := (vbInCnt + UInt32.ofNat pos).toInt32 } := by
  induction es generalizing vbInCnt with
  | nil => rfl
  | cons e es ih =>
    rw [reportErrors, firstFailure]
    by_cases he : e = 0
    · have hkeep : reportError e (vbInCnt + 1) hdr = hdr := by simp [reportError, he]
      rw [hkeep, ih, if_neg (by simpa using he)]
      cases hrest : firstFailure es with
      | none => rfl
      | some f =>
        simp only [map_some, add_one_add_ofNat]
    · have hset : reportError e (vbInCnt + 1) hdr =
          { hdr with errStat := e, errIdx := (vbInCnt + 1).toInt32 } := by
        simp [reportError, he, h]
      rw [hset, reportErrors_of_ne _ _ he, if_pos he]
      rfl

/-- The error index holds positions below `2 ^ 31`. -/
theorem toInt_ofNat_eq_iff (n : ℕ) : (UInt32.ofNat n).toInt32.toInt = n ↔ n < 2 ^ 31 := by
  have hbmod : (UInt32.ofNat n).toInt32.toInt = (n : ℤ).bmod (2 ^ 32) := by
    rw [UInt32.toInt32_ofNat', Int32.toInt_ofNat']
    rfl
  rw [hbmod, Int.bmod_def]
  constructor
  · intro hmod
    split at hmod <;> omega
  · intro hlt
    split <;> omega

/-- The error fields tell the first failure and its position, and are zero without one. -/
def PduHdr.Tells (hdr : PduHdr) (es : List Int32) : Prop :=
  match firstFailure es with
  | none => hdr.errStat = 0 ∧ hdr.errIdx = 0
  | some (pos, e) => hdr.errStat = e ∧ hdr.errIdx.toInt = pos

/-- The error index of a request that its processing starts with. -/
def askedIdx (sdg : SnmpDatagram) : Int32 :=
  if sdg.pduHdr.pduType = snmpReqBulkget then 0 else sdg.pduHdr.errIdx

theorem startHdr_errStat (sdg : SnmpDatagram) : (startHdr sdg).errStat = sdg.pduHdr.errStat := by
  rw [startHdr]
  split <;> rfl

theorem startHdr_errIdx (sdg : SnmpDatagram) : (startHdr sdg).errIdx = askedIdx sdg := by
  rw [startHdr, askedIdx]
  split <;> rfl

/-- **The error fields of a response.** They tell the first failing varbind exactly when the request
has no error status and there is a failure, at a position that the index can hold; or nothing fails
and the request has zero in both fields; or the request happens to have the failure in its fields. -/
theorem errorFields_iff {ag : Agent σ} {sdg resp : SnmpDatagram} {w w' : World Event σ}
    (h : snmpRequestDispatch ag sdg w = (some (some resp), w')) :
    ∃ results, requestResults ag sdg w = (some (some (resp, results)), w') ∧
      (resp.pduHdr.Tells (results.map (·.errStat)) ↔
        match firstFailure (results.map (·.errStat)) with
        | none => sdg.pduHdr.errStat = 0 ∧ askedIdx sdg = 0
        | some (pos, e) => (sdg.pduHdr.errStat = 0 ∧ pos < 2 ^ 31) ∨
            (sdg.pduHdr.errStat = e ∧ (askedIdx sdg).toInt = pos)) := by
  obtain ⟨results, hres⟩ := exists_requestResults h
  refine ⟨results, hres, ?_⟩
  rw [requestResults_hdr hres]
  set es := results.map (·.errStat)
  by_cases hzero : sdg.pduHdr.errStat = 0
  · rw [reportErrors_eq 0 es ((startHdr_errStat sdg).trans hzero), PduHdr.Tells]
    cases hfail : firstFailure es with
    | none => simp only [startHdr_errStat, startHdr_errIdx]
    | some f =>
      have hne : (0 : Int32) ≠ f.2 := (firstFailure_ne_zero hfail).symm
      simp only [hzero, hne, UInt32.zero_add, toInt_ofNat_eq_iff, true_and, false_and, or_false]
  · rw [reportErrors_of_ne 0 es (startHdr_errStat sdg ▸ hzero), PduHdr.Tells]
    cases hfail : firstFailure es with
    | none => simp only [startHdr_errStat, startHdr_errIdx]
    | some f => simp [hzero, startHdr_errStat, startHdr_errIdx]

/-- GETBULK of an integer, with one repetition. -/
def scalarBulk (nonRepeaters : Int32) : SnmpDatagram where
  contextName := [0x70]
  pduHdr := { pduType := snmpReqBulkget, errStat := nonRepeaters, errIdx := 1 }
  vbInList := [{ oid := [1, 3], valueType := asn1TagNul, value := [] }]

/-- An agent with an integer at `1.3.1.0`, which everybody may read. -/
def scalarReader : Agent Int := luaAgent oneScalarRoot (oneReadView [1]) fun _ => oneScalarGroup

theorem scalarBulk_results (nonRepeaters : Int32) (h : nonRepeaters = 0 ∨ nonRepeaters = 1) :
    ∃ resp results w', requestResults scalarReader (scalarBulk nonRepeaters) ⟨42, []⟩ =
        (some (some (resp, results)), w') ∧
      resp.vbOutList.map (·.value) = [[42]] ∧ results.map (·.errStat) = [0] ∧
      resp.pduHdr.errStat = nonRepeaters := by
  have hrun : (requestResults scalarReader (scalarBulk nonRepeaters) ⟨42, []⟩).1.map
      (Option.map fun r => (r.1.vbOutList.map (·.value), r.2.map (·.errStat), r.1.pduHdr.errStat)) =
      some (some ([[42]], [0], nonRepeaters)) := by
    rcases h with rfl | rfl <;> decide +kernel
  generalize requestResults scalarReader (scalarBulk nonRepeaters) ⟨42, []⟩ = run at hrun ⊢
  obtain ⟨res, w'⟩ := run
  obtain ⟨res, rfl, hmap⟩ := map_eq_some_iff.mp hrun
  obtain ⟨⟨resp, results⟩, rfl, heq⟩ := map_eq_some_iff.mp hmap
  obtain ⟨hout, herr⟩ := Prod.mk.inj heq
  obtain ⟨hresults, hstat⟩ := Prod.mk.inj herr
  exact ⟨resp, results, w', rfl, hout, hresults, hstat⟩

/-- Without non-repeaters nothing fails, and the error fields are zero. -/
theorem errorFields_scalarBulk :
    ∃ resp w', snmpRequestDispatch scalarReader (scalarBulk 0) ⟨42, []⟩ = (some (some resp), w') ∧
      ∃ results, requestResults scalarReader (scalarBulk 0) ⟨42, []⟩ =
          (some (some (resp, results)), w') ∧
        results.map (·.errStat) = [0] ∧ resp.pduHdr.Tells (results.map (·.errStat)) := by
  obtain ⟨resp, results, w', hres, -, herr, -⟩ := scalarBulk_results 0 (.inl rfl)
  have hrun := snmpRequestDispatch_of_results hres
  obtain ⟨results', hres', htells⟩ := errorFields_iff hrun
  obtain rfl : results = results' := by
    rw [hres] at hres'
    simpa using hres'
  refine ⟨resp, w', hrun, results, hres, herr, htells.mpr ?_⟩
  rw [herr]
  exact ⟨rfl, rfl⟩

/-- With one non-repeater nothing fails, and the response has an error status. -/
theorem scalarBulk_tooBig :
    ∃ resp results w', snmpRequestDispatch scalarReader (scalarBulk 1) ⟨42, []⟩ =
        (some (some resp), w') ∧
      requestResults scalarReader (scalarBulk 1) ⟨42, []⟩ = (some (some (resp, results)), w') ∧
      resp.vbOutList.map (·.value) = [[42]] ∧ results.map (·.errStat) = [0] ∧
      resp.pduHdr.errStat = 1 ∧ ¬ resp.pduHdr.Tells (results.map (·.errStat)) := by
  obtain ⟨resp, results, w', hres, hout, herr, hstat⟩ := scalarBulk_results 1 (.inr rfl)
  refine ⟨resp, results, w', snmpRequestDispatch_of_results hres, hres, hout, herr, hstat, ?_⟩
  rw [herr]
  rintro ⟨hzero, -⟩
  rw [hstat] at hzero
  exact absurd hzero (by decide)

end SmithSnmp
