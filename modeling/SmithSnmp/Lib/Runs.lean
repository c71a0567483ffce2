import Mathlib.Logic.Basic

/-!
# Runs of Fallible Steps

A system takes one step for every input and may come to an end. `EveryStep Q` says that `Q`
holds of every step of a run: of the state before it, the input and the state after it.
`EveryStep.congr` compares two such statements along an invariant: when `Q` and `C` are
equivalent for every step from a state in the invariant, and `C` keeps the invariant, the
runs whose steps satisfy `Q` are those whose steps satisfy `C`.
-/

namespace SmithSnmp.Lib

open List

variable {S ι : Type}

/-- The state after a list of inputs, when every step is taken. -/
def run (step : S → ι → Option S) : S → List ι → Option S
  | s, [] => some s
  | s, i :: is => (step s i).bind fun s' => run step s' is

/-- `Q` holds of every step that is taken. -/
def EveryStep (step : S → ι → Option S) (Q : S → ι → S → Prop) : S → List ι → Prop
  | _, [] => True
  | s, i :: is => ∀ s', step s i = some s' → Q s i s' ∧ EveryStep step Q s' is

variable {step : S → ι → Option S} {Q C : S → ι → S → Prop}

instance EveryStep.decidable [∀ s i s', Decidable (Q s i s')] :
    ∀ s is, Decidable (EveryStep step Q s is)
  | _, [] => isTrue trivial
  | s, i :: is =>
    match h : step s i with
    | none => isTrue fun s' hs' => absurd (h.symm.trans hs') (by simp)
    | some t =>
      have := EveryStep.decidable t is
      decidable_of_iff (Q s i t ∧ EveryStep step Q t is)
        ⟨fun hq s' hs' => Option.some.inj (h.symm.trans hs') ▸ hq, fun hall => hall t h⟩

/-- **Runs in an invariant that inputs keep**: such a run comes to its end exactly when every input
is one that is taken in the invariant. -/
theorem run_cases (Inv : S → Prop) {Taken : ι → Prop} {is : List ι}
    (htaken : ∀ s i, i ∈ is → Inv s → ((step s i).isSome ↔ Taken i))
    (hinv : ∀ s i s', i ∈ is → Inv s → step s i = some s' → Inv s') {s : S} (hs : Inv s) :
    (run step s is = none ∧ ¬ ∀ i ∈ is, Taken i) ∨
      ∃ s', run step s is = some s' ∧ Inv s' ∧ ∀ i ∈ is, Taken i := by
  induction is generalizing s with
  | nil => exact .inr ⟨s, rfl, hs, by simp⟩
  | cons i is ih =>
    have hhead := htaken s i mem_cons_self hs
    cases hstep : step s i with
    | none =>
      rw [hstep] at hhead
      refine .inl ⟨by rw [run, hstep]; rfl, fun hall => ?_⟩
      exact absurd (hhead.mpr (hall i mem_cons_self)) (by simp)
    | some t =>
      have hrun : run step s (i :: is) = run step t is := by rw [run, hstep]; rfl
      rw [hrun, forall_mem_cons, and_iff_right (hhead.mp (by rw [hstep]; rfl))]
      exact ih (fun s i hi => htaken s i (mem_cons_of_mem _ hi))
        (fun s i s' hi => hinv s i s' (mem_cons_of_mem _ hi))
        (hinv s i t mem_cons_self hs hstep)

/-- **Comparison along an invariant.** -/
theorem EveryStep.congr (Inv : S → Prop) {is : List ι}
    (hiff : ∀ s i s', i ∈ is → Inv s → step s i = some s' → (Q s i s' ↔ C s i s'))
    (hinv : ∀ s i s', i ∈ is → Inv s → step s i = some s' → C s i s' → Inv s') {s : S}
    (hs : Inv s) : EveryStep step Q s is ↔ EveryStep step C s is := by
  induction is generalizing s with
  | nil => exact Iff.rfl
  | cons i is ih =>
    have hhead := fun s' => hiff s i s' mem_cons_self hs
    have htail := fun s' hstep hC => ih
      (fun s i s' hmem => hiff s i s' (mem_cons_of_mem _ hmem))
      (fun s i s' hmem => hinv s i s' (mem_cons_of_mem _ hmem))
      (hinv s i s' mem_cons_self hs hstep hC)
    constructor
    · intro h s' hstep
      obtain ⟨hQ, hrest⟩ := h s' hstep
      have hC := (hhead s' hstep).mp hQ
      exact ⟨hC, (htail s' hstep hC).mp hrest⟩
    · intro h s' hstep
      obtain ⟨hC, hrest⟩ := h s' hstep
      exact ⟨(hhead s' hstep).mpr hC, (htail s' hstep hC).mpr hrest⟩

/-- **Runs in an invariant**, for inputs each of which keeps it. -/
theorem EveryStep.of_invariant (Inv : S → Prop) {is : List ι}
    (hstep : ∀ s i s', i ∈ is → Inv s → step s i = some s' → Q s i s' ∧ Inv s') {s : S}
    (hs : Inv s) : EveryStep step Q s is := by
  induction is generalizing s with
  | nil => trivial
  | cons i is ih =>
    intro s' hi
    obtain ⟨hQ, hinv⟩ := hstep s i s' mem_cons_self hs hi
    exact ⟨hQ, ih (fun s i s' hmem => hstep s i s' (mem_cons_of_mem _ hmem)) hinv⟩

end SmithSnmp.Lib
