import SmithSnmp.Lib.Cursor

/-!
# Readers with a Journal

Readers that note what they do, over an arbitrary type `ω` of entries. The journal stays when the
reader halts, so what was done before is still on record.

`Records x y E` says that without its journal `x` is the reader `y`, and that whatever it notes
satisfies `E`. There is one rule for each construct, so that a reader with a journal is compared
with the one without it line by line.
-/

namespace SmithSnmp.Lib

/-- A reader that keeps a journal. -/
def Journal (β ε ω α : Type) := Cursor β → List ω × Except (Halt ε) (α × Cursor β)

namespace Journal

variable {β ε ω α γ : Type}

/-- Journals are appended; a halt keeps the one so far. -/
instance instMonad : Monad (Journal β ε ω) where
  pure a := fun c => ([], .ok (a, c))
  bind x f := fun c =>
    match x c with
    | (notes, .ok (a, c')) => (notes ++ (f a c').1, (f a c').2)
    | (notes, .error e) => (notes, .error e)

/-- Make an entry. -/
def note (e : ω) : Journal β ε ω Unit := fun c => ([e], .ok ((), c))

/-- Run a reader that notes nothing. -/
def quiet (x : Reader β ε α) : Journal β ε ω α := fun c => ([], x c)

/-- A sequence whose first part yields `a` goes on with `f a`. -/
theorem bind_eq_of_ok {x : Journal β ε ω α} {f : α → Journal β ε ω γ} {c c' : Cursor β} {a : α}
    (h : (x c).2 = .ok (a, c')) : (x >>= f) c = ((x c).1 ++ (f a c').1, (f a c').2) := by
  change (match x c with
    | (notes, .ok (a, c')) => (notes ++ (f a c').1, (f a c').2)
    | (notes, .error e) => (notes, .error e)) = _
  rcases hx : x c with ⟨notes, r⟩
  rw [hx] at h
  subst h
  rfl

/-- A sequence whose first part halts, halts with its journal. -/
theorem bind_eq_of_error {x : Journal β ε ω α} {f : α → Journal β ε ω γ} {c : Cursor β}
    {e : Halt ε} (h : (x c).2 = .error e) : (x >>= f) c = ((x c).1, .error e) := by
  change (match x c with
    | (notes, .ok (a, c')) => (notes ++ (f a c').1, (f a c').2)
    | (notes, .error e) => (notes, .error e)) = _
  rcases hx : x c with ⟨notes, r⟩
  rw [hx] at h
  subst h
  rfl

/-! ### What is done and what is noted -/

/-- Without its journal `x` is the reader `y`, and whatever it notes satisfies `E`. -/
structure Records (x : Journal β ε ω α) (y : Reader β ε α) (E : ω → Prop) : Prop where
  /-- what is done -/
  does : ∀ c, (x c).2 = y c
  /-- what is noted -/
  notes : ∀ c, ∀ e ∈ (x c).1, E e

variable {E : ω → Prop}

/-- A returned value is noted nowhere. -/
theorem Records.pure (a : α) : Records (Pure.pure a : Journal β ε ω α) (Pure.pure a) E :=
  ⟨fun _ => rfl, nofun⟩

/-- A reader that notes nothing. -/
theorem Records.quiet (x : Reader β ε α) : Records (quiet x : Journal β ε ω α) x E :=
  ⟨fun _ => rfl, nofun⟩

/-- An entry does nothing. -/
theorem Records.note {e : ω} (h : E e) :
    Records (note e : Journal β ε ω Unit) (Pure.pure ()) E := by
  refine ⟨fun _ => rfl, fun c e' he => ?_⟩
  rwa [List.mem_singleton.mp he]

/-- Sequencing, part by part. -/
theorem Records.bind {x : Journal β ε ω α} {y : Reader β ε α} {f : α → Journal β ε ω γ}
    {g : α → Reader β ε γ} (hx : Records x y E) (hf : ∀ a, Records (f a) (g a) E) :
    Records (x >>= f) (y >>= g) E := by
  constructor
  · intro c
    rcases hy : y c with e | ⟨a, c'⟩
    · rw [bind_eq_of_error ((hx.does c).trans hy), Reader.bind_eq_of_error hy]
    · rw [bind_eq_of_ok ((hx.does c).trans hy), Reader.bind_eq_of_ok hy]
      exact (hf a).does c'
  · intro c e he
    rcases hr : (x c).2 with e' | ⟨a, c'⟩
    · rw [bind_eq_of_error hr] at he
      exact hx.notes c e he
    · rw [bind_eq_of_ok hr] at he
      rcases List.mem_append.mp he with he | he
      · exact hx.notes c e he
      · exact (hf a).notes c' e he

/-- What does nothing can be left out in front. -/
theorem Records.after {n : Journal β ε ω Unit} {x : Journal β ε ω α} {y : Reader β ε α}
    (hn : Records n (Pure.pure ()) E) (hx : Records x y E) : Records (n >>= fun _ => x) y E :=
  hn.bind fun _ => hx

/-- Looking at the cursor for what is noted does nothing. -/
theorem Records.get_bind {x : Cursor β → Journal β ε ω α} {y : Reader β ε α}
    (h : ∀ c, Records (x c) y E) : Records (Journal.quiet get >>= x) y E :=
  ⟨fun c => (h c).does c, fun c => (h c).notes c⟩

/-- A branch. -/
theorem Records.ite {p : Prop} [Decidable p] {x x' : Journal β ε ω α} {y y' : Reader β ε α}
    (h : Records x y E) (h' : Records x' y' E) :
    Records (if p then x else x') (if p then y else y') E := by
  split
  · exact h
  · exact h'

end Journal

end SmithSnmp.Lib
