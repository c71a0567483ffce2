import Mathlib.Computability.StateTransition

/-!
# Loops

A loop is a function that gives the state after a round, and nothing when the loop ends. Its
runs are those of `StateTransition`: `eval round s` is the last state, if there is one.

* `reaches_of_round`: a round in front of a run.
* `invariant_of_reaches`: what every round keeps holds along a run.
* `notMem_eval_of_progress`: the rule for loops that do not end.
-/

namespace SmithSnmp.Lib

open StateTransition Relation

variable {S : Type} {round : S → Option S}

/-- A round in front of a run. -/
theorem reaches_of_round {s t u : S} (h : round s = some t) (hrun : Reaches round t u) :
    Reaches round s u :=
  ReflTransGen.head h hrun

/-- **Invariants.** What every round keeps holds along a run. -/
theorem invariant_of_reaches (P : S → Prop) (hround : ∀ s t, P s → round s = some t → P t)
    {s t : S} (hs : P s) (hrun : Reaches round s t) : P t := by
  induction hrun with
  | refl => exact hs
  | tail _ hstep ih => exact hround _ _ ih hstep

/-- **Loops without end.** When every state with `P` has a next one with `P`, the loop does
not end from such a state. -/
theorem notMem_eval_of_progress (P : S → Prop)
    (hround : ∀ s, P s → ∃ t, round s = some t ∧ P t) {s : S} (hs : P s) (t : S) :
    t ∉ eval round s := by
  intro ht
  obtain ⟨hreach, hend⟩ := mem_eval.mp ht
  have hkeep : ∀ s t, P s → round s = some t → P t := by
    intro s t hs hst
    obtain ⟨u, hu, hP⟩ := hround s hs
    exact Option.mem_unique hu hst ▸ hP
  obtain ⟨u, hu, -⟩ := hround t (invariant_of_reaches P hkeep hs hreach)
  rw [hend] at hu
  cases hu

end SmithSnmp.Lib
