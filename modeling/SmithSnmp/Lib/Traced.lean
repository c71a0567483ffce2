import Mathlib.Logic.Basic

/-!
# Computations with a Log

Stateful computations that append events to a log and may abort, over an arbitrary state
type `σ` and event type `ε`. An aborted computation keeps the state and the log it had
reached, so what it did before is still on record.

`Spec x Q` says that every run of `x` only appends to the log, and that its outcome and
the appended events satisfy `Q`. `Spec.bind` is the sequencing rule, and the only place
where two logs are joined.
-/

namespace SmithSnmp.Lib

/-- A state together with the log of events so far. -/
structure World (ε σ : Type) where
  state : σ
  /-- the events so far, oldest first -/
  log : List ε

/-- A computation with a log: it yields a value or aborts, and leaves a world either
way. -/
def Traced (ε σ α : Type) := World ε σ → Option α × World ε σ

namespace Traced

variable {ε σ α β : Type}

instance : Monad (Traced ε σ) where
  pure a := fun w => (some a, w)
  bind x f := fun w =>
    match x w with
    | (some a, w') => f a w'
    | (none, w') => (none, w')

/-- Abort, keeping the world. -/
def abort : Traced ε σ α := fun w => (none, w)

/-- Append one event to the log. -/
def emit (e : ε) : Traced ε σ Unit := fun w => (some (), { w with log := w.log ++ [e] })

/-- Run a transition of the state. -/
def access (f : σ → α × σ) : Traced ε σ α :=
  fun w => (some (f w.state).1, { w with state := (f w.state).2 })

@[simp] theorem pure_apply (a : α) (w : World ε σ) : (pure a : Traced ε σ α) w = (some a, w) :=
  rfl

/-- Running a sequence runs the first part, and the second on what it left. -/
theorem bind_apply (x : Traced ε σ α) (f : α → Traced ε σ β) (w : World ε σ) :
    (x >>= f) w = match x w with
      | (some a, w') => f a w'
      | (none, w') => (none, w') :=
  rfl

/-- A sequence whose first part yields `a` continues with `f a`. -/
theorem bind_eq_of_some {x : Traced ε σ α} {f : α → Traced ε σ β} {w w' : World ε σ} {a : α}
    (h : x w = (some a, w')) : (x >>= f) w = f a w' := by
  rw [bind_apply, h]

variable {x : Traced ε σ α} {f : α → Traced ε σ β}

/-- A sequence whose first part aborts is aborted. -/
theorem bind_eq_of_none {w w' : World ε σ} (h : x w = (none, w')) : (x >>= f) w = (none, w') := by
  rw [bind_apply, h]

@[simp] theorem abort_apply (w : World ε σ) : (abort : Traced ε σ α) w = (none, w) := rfl

@[simp] theorem emit_apply (e : ε) (w : World ε σ) :
    (emit e : Traced ε σ Unit) w = (some (), { w with log := w.log ++ [e] }) := rfl

@[simp] theorem access_apply (f : σ → α × σ) (w : World ε σ) :
    (access f : Traced ε σ α) w = (some (f w.state).1, { w with state := (f w.state).2 }) :=
  rfl

@[simp] theorem pure_bind (a : α) (f : α → Traced ε σ β) : (pure a >>= f) = f a := rfl

/-- A returned value is the one given, in the same world. -/
theorem pure_eq_some_iff {a b : α} {w w' : World ε σ} :
    (pure a : Traced ε σ α) w = (some b, w') ↔ a = b ∧ w = w' := by
  simp

/-- A sequence yields a value when both of its parts do. -/
theorem bind_eq_some_iff {x : Traced ε σ α} {f : α → Traced ε σ β} {b : β}
    {w w' : World ε σ} :
    (x >>= f) w = (some b, w') ↔ ∃ a w₁, x w = (some a, w₁) ∧ f a w₁ = (some b, w') := by
  rcases hx : x w with ⟨_ | a, w₁⟩
  · simp [bind_eq_of_none hx]
  · rw [bind_eq_of_some hx]
    constructor
    · intro h
      exact ⟨a, w₁, rfl, h⟩
    · rintro ⟨a', w₂, heq, h⟩
      obtain ⟨ha, rfl⟩ := Prod.mk.inj heq
      obtain rfl := Option.some.inj ha
      exact h

/-- Two continuations that agree on what the first part can yield give the same
sequence. -/
theorem bind_congr {g : α → Traced ε σ β} (h : ∀ w a w', x w = (some a, w') → f a = g a) :
    x >>= f = x >>= g := by
  funext w
  rcases hx : x w with ⟨_ | a, w'⟩
  · rw [bind_eq_of_none hx, bind_eq_of_none hx]
  · rw [bind_eq_of_some hx, bind_eq_of_some hx, h w a w' hx]

/-- Mapping is sequencing with a returned value. -/
theorem map_eq_bind (f : α → β) (x : Traced ε σ α) : f <$> x = x >>= fun a => pure (f a) := rfl

/-- What a sequence with a returned value yields. -/
theorem bind_pure_fst (x : Traced ε σ α) (f : α → β) (w : World ε σ) :
    ((x >>= fun a => pure (f a)) w).1 = (x w).1.map f := by
  rcases hx : x w with ⟨_ | a, w'⟩
  · rw [bind_eq_of_none hx]
    rfl
  · rw [bind_eq_of_some hx]
    rfl

/-- Returning the result of a program does nothing more. -/
theorem bind_pure (x : Traced ε σ α) : (x >>= fun a => pure a) = x := by
  funext w
  rw [bind_apply]
  rcases x w with ⟨_ | a, w'⟩ <;> rfl

theorem bind_assoc {γ : Type} (x : Traced ε σ α) (f : α → Traced ε σ β)
    (g : β → Traced ε σ γ) : x >>= f >>= g = x >>= fun a => f a >>= g := by
  funext w
  rcases hx : x w with ⟨_ | a, w'⟩
  · rw [bind_eq_of_none hx, bind_eq_of_none (bind_eq_of_none hx)]
  · rw [bind_eq_of_some hx, bind_apply, bind_eq_of_some hx]
    rfl

/-! ### What is yielded -/

/-- What the computation yields satisfies `R`. -/
def Ensures (x : Traced ε σ α) (R : α → Prop) : Prop := ∀ w a w', x w = (some a, w') → R a

theorem Ensures.pure {a : α} {R : α → Prop} (h : R a) :
    Ensures (Pure.pure a : Traced ε σ α) R := by
  intro w a' w' heq
  obtain ⟨rfl, -⟩ := pure_eq_some_iff.mp heq
  exact h

theorem Ensures.abort {R : α → Prop} : Ensures (abort : Traced ε σ α) R := by
  intro w a w' heq
  cases heq

/-- Sequencing, with what the first part yields. -/
theorem Ensures.bind_of {x : Traced ε σ α} {f : α → Traced ε σ β} {R : α → Prop}
    {T : β → Prop} (hx : Ensures x R) (hf : ∀ a, R a → Ensures (f a) T) :
    Ensures (x >>= f) T := by
  intro w b w' h
  obtain ⟨a, w₁, h₁, h₂⟩ := bind_eq_some_iff.mp h
  exact hf a (hx w a w₁ h₁) w₁ b w' h₂

/-- Sequencing, whatever the first part yields. -/
theorem Ensures.bind (x : Traced ε σ α) {f : α → Traced ε σ β} {T : β → Prop}
    (hf : ∀ a, Ensures (f a) T) : Ensures (x >>= f) T :=
  Ensures.bind_of (x := x) (R := fun _ => True) (fun _ _ _ _ => trivial) fun a _ => hf a

/-! ### Specifications of runs -/

/-- Every run of `x` appends some events to the log, and its outcome and these events
satisfy `Q`. -/
def Spec (x : Traced ε σ α) (Q : Option α → List ε → Prop) : Prop :=
  ∀ w, ∃ new, (x w).2.log = w.log ++ new ∧ Q (x w).1 new

/-- A returned value appends nothing. -/
theorem Spec.pure {a : α} {Q : Option α → List ε → Prop} (h : Q (some a) []) :
    Spec (Pure.pure a : Traced ε σ α) Q :=
  fun w => ⟨[], by simp, h⟩

/-- An abort appends nothing. -/
theorem Spec.abort {Q : Option α → List ε → Prop} (h : Q none []) :
    Spec (abort : Traced ε σ α) Q :=
  fun w => ⟨[], by simp, h⟩

/-- An emitted event is appended. -/
theorem Spec.emit {e : ε} {Q : Option Unit → List ε → Prop} (h : Q (some ()) [e]) :
    Spec (emit e : Traced ε σ Unit) Q :=
  fun w => ⟨[e], by simp, h⟩

/-- **Sequencing.** The second part is judged with the events of the first in front. -/
theorem Spec.bind {P : Option α → List ε → Prop} {Q : Option β → List ε → Prop} (hx : Spec x P)
    (hf : ∀ a l, P (some a) l → Spec (f a) fun r l' => Q r (l ++ l'))
    (hn : ∀ l, P none l → Q none l) : Spec (x >>= f) Q := by
  intro w
  obtain ⟨l, hl, hP⟩ := hx w
  rcases hxw : x w with ⟨_ | a, w'⟩
  · rw [hxw] at hl hP
    rw [bind_eq_of_none hxw]
    exact ⟨l, hl, hn l hP⟩
  · rw [hxw] at hl hP
    obtain ⟨l', hl', hQ⟩ := hf a l hP w'
    rw [bind_eq_of_some hxw]
    refine ⟨l ++ l', ?_, hQ⟩
    rw [hl', ← List.append_assoc]
    exact congrArg (· ++ l') hl

/-- A weaker postcondition follows. -/
theorem Spec.mono {x : Traced ε σ α} {P Q : Option α → List ε → Prop} (hx : Spec x P)
    (h : ∀ r l, P r l → Q r l) : Spec x Q := by
  intro w
  obtain ⟨l, hl, hP⟩ := hx w
  exact ⟨l, hl, h _ _ hP⟩

/-- Mapping the value does not touch the log. -/
theorem Spec.map {f : α → β} {Q : Option β → List ε → Prop} (hx : Spec x fun r l => Q (r.map f) l) :
    Spec (f <$> x) Q := by
  refine hx.bind (fun a l ha => Spec.pure ?_) fun l hl => hl
  rw [List.append_nil]
  exact ha

/-! ### Properties of every event -/

/-- Every appended event satisfies `E`, and a value that is yielded satisfies `R`. -/
def Each (E : ε → Prop) (R : α → Prop) (r : Option α) (new : List ε) : Prop :=
  (∀ e ∈ new, E e) ∧ ∀ a, r = some a → R a

variable {E : ε → Prop} {R : α → Prop}

/-- A returned value. -/
theorem Spec.each_pure {a : α} (h : R a) : Spec (Pure.pure a : Traced ε σ α) (Each E R) :=
  Spec.pure ⟨by simp, by rintro _ ⟨⟩; exact h⟩

/-- An abort yields nothing. -/
theorem Spec.each_abort : Spec (Traced.abort : Traced ε σ α) (Each E R) :=
  Spec.abort ⟨by simp, by rintro _ ⟨⟩⟩

/-- Sequencing: only the yielded value is passed on. -/
theorem Spec.each_bind {x : Traced ε σ α} {f : α → Traced ε σ β} {T : β → Prop}
    (hx : Spec x (Each E R)) (hf : ∀ a, R a → Spec (f a) (Each E T)) :
    Spec (x >>= f) (Each E T) := by
  refine hx.bind (fun a l ha => (hf a (ha.2 a rfl)).mono ?_) fun l hl => ⟨hl.1, by simp⟩
  rintro r l' ⟨hl', hr⟩
  refine ⟨fun e he => ?_, hr⟩
  rcases List.mem_append.mp he with he | he
  · exact ha.1 e he
  · exact hl' e he

/-- Weaker properties follow. -/
theorem Spec.each_mono {x : Traced ε σ α} {E' : ε → Prop} {R' : α → Prop}
    (hx : Spec x (Each E R)) (hE : ∀ e, E e → E' e) (hR : ∀ a, R a → R' a) :
    Spec x (Each E' R') :=
  hx.mono fun _ _ h => ⟨fun e he => hE e (h.1 e he), fun a ha => hR a (h.2 a ha)⟩

/-! ### Runs that come to an end, and events that happen -/

/-- The computation yields a value that satisfies `R`, and if `H` holds, some appended event
satisfies `E`. -/
def Shows (E : ε → Prop) (H : Prop) (R : α → Prop) (r : Option α) (new : List ε) : Prop :=
  (∃ a, r = some a ∧ R a) ∧ (H → ∃ e ∈ new, E e)

/-- A returned value shows nothing. -/
theorem Spec.shows_pure {a : α} (h : R a) :
    Spec (Pure.pure a : Traced ε σ α) (Shows E False R) :=
  Spec.pure ⟨⟨a, rfl, h⟩, False.elim⟩

/-- A sequence shows what one of its parts shows. -/
theorem Spec.shows_bind {x : Traced ε σ α} {f : α → Traced ε σ β} {T : β → Prop} {H K : Prop}
    (hx : Spec x (Shows E H R)) (hf : ∀ a, R a → Spec (f a) (Shows E K T)) :
    Spec (x >>= f) (Shows E (H ∨ K) T) := by
  refine hx.bind ?_ ?_
  · rintro a l ⟨⟨_, ⟨⟩, ha⟩, hH⟩
    refine (hf a ha).mono ?_
    rintro r l' ⟨hr, hK⟩
    refine ⟨hr, ?_⟩
    rintro (h | h)
    · obtain ⟨e, he, hE⟩ := hH h
      exact ⟨e, List.mem_append_left l' he, hE⟩
    · obtain ⟨e, he, hE⟩ := hK h
      exact ⟨e, List.mem_append_right l he, hE⟩
  · rintro l ⟨⟨_, ⟨⟩, _⟩, _⟩

/-- Weaker properties follow, under a stronger condition. -/
theorem Spec.shows_mono {H K : Prop} {R' : α → Prop} (hx : Spec x (Shows E H R)) (hK : K → H)
    (hR : ∀ a, R a → R' a) : Spec x (Shows E K R') := by
  refine hx.mono ?_
  rintro r l ⟨⟨a, ha, h⟩, hH⟩
  exact ⟨⟨a, ha, hR a h⟩, fun h => hH (hK h)⟩

/-- A sequence shows what its second part shows. -/
theorem Spec.shows_after {x : Traced ε σ α} {f : α → Traced ε σ β} {T : β → Prop} {H K : Prop}
    (hx : Spec x (Shows E H R)) (hf : ∀ a, R a → Spec (f a) (Shows E K T)) :
    Spec (x >>= f) (Shows E K T) :=
  (Spec.shows_bind hx hf).shows_mono .inr fun _ h => h

/-! ### What becomes of the state -/

/-- The computation yields a value and takes the state on as `R` says. -/
def Moves (x : Traced ε σ α) (R : σ → σ → Prop) : Prop :=
  ∀ w, ∃ a w', x w = (some a, w') ∧ R w.state w'.state

section Moves

variable {S T : σ → σ → Prop}

theorem Moves.pure {a : α} (h : ∀ s, S s s) : Moves (Pure.pure a : Traced ε σ α) S :=
  fun w => ⟨a, w, rfl, h w.state⟩

theorem Moves.emit {e : ε} (h : ∀ s, S s s) : Moves (emit e : Traced ε σ Unit) S :=
  fun w => ⟨(), _, rfl, h w.state⟩

/-- Sequencing takes the state on by one part after the other. -/
theorem Moves.bind {x : Traced ε σ α} {f : α → Traced ε σ β} {R : σ → σ → Prop}
    (hx : Moves x S) (hf : ∀ a, Moves (f a) T) (h : ∀ s t u, S s t → T t u → R s u) :
    Moves (x >>= f) R := by
  intro w
  obtain ⟨a, w', hxw, hS⟩ := hx w
  obtain ⟨b, w'', hfw, hT⟩ := hf a w'
  exact ⟨b, w'', by rw [bind_eq_of_some hxw, hfw], h _ _ _ hS hT⟩

/-- A weaker relation follows. -/
theorem Moves.mono (hx : Moves x S) (h : ∀ s t, S s t → T s t) : Moves x T := by
  intro w
  obtain ⟨a, w', hxw, hS⟩ := hx w
  exact ⟨a, w', hxw, h _ _ hS⟩

/-- Mapping the value does not touch the state. -/
theorem Moves.map {x : Traced ε σ α} {f : α → β} (hx : Moves x S) : Moves (f <$> x) S := by
  intro w
  obtain ⟨a, w', hxw, hS⟩ := hx w
  exact ⟨f a, w', by rw [map_eq_bind, bind_eq_of_some hxw, pure_apply], hS⟩

end Moves

/-! ### Two computations -/

/-- The computation yields a value that satisfies `R`. -/
def Yields (x : Traced ε σ α) (R : α → Prop) : Prop := ∀ w, ∃ a w', x w = (some a, w') ∧ R a

/-- Two computations, over different states, have the same outcome: both abort, or both yield
values in the relation `R`, whatever worlds they start in. -/
def Agree {τ : Type} (R : α → β → Prop) (x : Traced ε σ α) (y : Traced ε τ β) : Prop :=
  ∀ w v, Option.Rel R (x w).1 (y v).1

section Agree

variable {τ α' β' : Type} {R : α → β → Prop} {T : α' → β' → Prop}

theorem Agree.pure {a : α} {b : β} (h : R a b) :
    Agree R (Pure.pure a : Traced ε σ α) (Pure.pure b : Traced ε τ β) :=
  fun _ _ => .some h

theorem Agree.abort : Agree R (Traced.abort : Traced ε σ α) (Traced.abort : Traced ε τ β) :=
  fun _ _ => .none

variable {y : Traced ε τ β}

/-- Computations that yield related values. -/
theorem Agree.of_yields {P : α → Prop} {Q : β → Prop} (hx : Yields x P) (hy : Yields y Q)
    (h : ∀ a b, P a → Q b → R a b) : Agree R x y := by
  intro w v
  obtain ⟨a, w', hxw, ha⟩ := hx w
  obtain ⟨b, v', hyv, hb⟩ := hy v
  rw [hxw, hyv]
  exact .some (h a b ha hb)

/-- **Sequencing** of two computations in step. -/
theorem Agree.bind {f : α → Traced ε σ α'} {g : β → Traced ε τ β'} (hxy : Agree R x y)
    (hfg : ∀ a b, R a b → Agree T (f a) (g b)) : Agree T (x >>= f) (y >>= g) := by
  intro w v
  have hrel := hxy w v
  rcases hx : x w with ⟨_ | a, w'⟩ <;> rcases hy : y v with ⟨_ | b, v'⟩ <;> rw [hx, hy] at hrel
  · rw [bind_eq_of_none hx, bind_eq_of_none hy]
    exact .none
  · cases hrel
  · cases hrel
  · rw [bind_eq_of_some hx, bind_eq_of_some hy]
    cases hrel with
    | some hab => exact hfg a b hab w' v'

theorem Agree.map {f : α → α'} {g : β → β'} (hxy : Agree R x y) (h : ∀ a b, R a b → T (f a) (g b)) :
    Agree T (f <$> x) (g <$> y) :=
  hxy.bind fun a b hab => Agree.pure (h a b hab)

/-- Computations that agree on equality have equal outcomes. -/
theorem Agree.eq {y : Traced ε τ α} (h : Agree (· = ·) x y) (w : World ε σ) (v : World ε τ) :
    (x w).1 = (y v).1 := by
  have hrel := h w v
  generalize (x w).1 = r, (y v).1 = r' at hrel ⊢
  cases hrel with
  | some hab => rw [hab]
  | none => rfl

end Agree

/-- Two computations over the same state **in lockstep**: from worlds with the same state, both
abort or both yield values in the relation `R`, and the state stays the same. The logs may differ.
-/
def Lockstep (R : α → β → Prop) (x : Traced ε σ α) (y : Traced ε σ β) : Prop :=
  ∀ w v, w.state = v.state → Option.Rel R (x w).1 (y v).1 ∧ (x w).2.state = (y v).2.state

section Lockstep

variable {α' β' : Type} {R : α → β → Prop} {T : α' → β' → Prop}

theorem Lockstep.pure {a : α} {b : β} (h : R a b) :
    Lockstep R (Pure.pure a : Traced ε σ α) (Pure.pure b : Traced ε σ β) :=
  fun _ _ hst => ⟨.some h, hst⟩

theorem Lockstep.abort : Lockstep R (Traced.abort : Traced ε σ α) (Traced.abort : Traced ε σ β) :=
  fun _ _ hst => ⟨.none, hst⟩

theorem Lockstep.emit (e e' : ε) :
    Lockstep (fun _ _ => True) (emit e : Traced ε σ Unit) (emit e' : Traced ε σ Unit) :=
  fun _ _ hst => ⟨.some trivial, hst⟩

theorem Lockstep.access (f : σ → α × σ) :
    Lockstep (· = ·) (access f : Traced ε σ α) (access f : Traced ε σ α) := by
  intro w v hst
  rw [access_apply, access_apply, hst]
  exact ⟨.some rfl, rfl⟩

/-- **Sequencing** of two computations in lockstep. -/
theorem Lockstep.bind {y : Traced ε σ β} {f : α → Traced ε σ α'} {g : β → Traced ε σ β'}
    (hxy : Lockstep R x y) (hfg : ∀ a b, R a b → Lockstep T (f a) (g b)) :
    Lockstep T (x >>= f) (y >>= g) := by
  intro w v hst
  obtain ⟨hrel, hst'⟩ := hxy w v hst
  rcases hx : x w with ⟨_ | a, w'⟩ <;> rcases hy : y v with ⟨_ | b, v'⟩ <;>
    rw [hx, hy] at hrel hst'
  · rw [bind_eq_of_none hx, bind_eq_of_none hy]
    exact ⟨.none, hst'⟩
  · cases hrel
  · cases hrel
  · rw [bind_eq_of_some hx, bind_eq_of_some hy]
    cases hrel with
    | some hab => exact hfg a b hab w' v' hst'

/-- What the first computation ensures may be added. -/
theorem Lockstep.and_ensures {y : Traced ε σ β} {P : α → Prop} (hxy : Lockstep R x y)
    (hx : Ensures x P) : Lockstep (fun a b => R a b ∧ P a) x y := by
  intro w v hst
  obtain ⟨hrel, hst'⟩ := hxy w v hst
  have hP := hx w
  rcases hxw : x w with ⟨r, w'⟩
  rw [hxw] at hrel hst' hP
  generalize (y v).1 = r' at hrel ⊢
  cases hrel with
  | some hab => exact ⟨.some ⟨hab, hP _ _ rfl⟩, hst'⟩
  | none => exact ⟨.none, hst'⟩

end Lockstep

end Traced

end SmithSnmp.Lib
