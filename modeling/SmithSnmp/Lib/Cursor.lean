import Mathlib.Data.List.Basic
import Mathlib.Tactic.Common

/-!
# Readers with a Cursor

Programs that move a cursor through a buffer of octets, over an arbitrary octet type `β`
and error type `ε`. A reader may refuse its input with an error. Reading an octet outside
the buffer is a halt of its own: the cursor itself may be moved behind the end as long as
nothing is read there. So is a loop that does not end, and a write to other memory, behind
which nothing is known any more. The buffer can be overwritten in place.

* `Parses x bs bs' a`: on the octets `bs`, whatever stands before and behind them, `x`
  yields `a`, moves over them and leaves `bs'` in their place. `Parses.bind` joins the
  octets of two readers; it is the rule for decoding what an encoder has written.
* `Refuses x bs`: on the octets `bs` the reader stops with an error.
* `Judges x ok bs a`: it parses the octets if `ok` holds, and refuses them if not. `Judges.bind`
  is the rule for a decoder that accepts exactly what is well formed.
* `Inside x c`: `x` reads nothing outside the buffer of `c` and writes to no other memory.
-/

namespace SmithSnmp.Lib

open List

/-- Why a reader stops. -/
inductive Halt (ε : Type) where
  /-- it would read outside the buffer -/
  | outside
  /-- it is in a loop that does not end -/
  | runaway
  /-- it has written over memory that is not its own -/
  | overrun
  /-- it refuses its input -/
  | error (e : ε)
deriving DecidableEq, Repr

/-- A buffer and a position, which may lie behind its end. -/
structure Cursor (β : Type) where
  buf : List β
  pos : ℕ
deriving DecidableEq, Repr

/-- Readers: programs over a cursor that may halt. -/
abbrev Reader (β ε : Type) := StateT (Cursor β) (Except (Halt ε))

namespace Reader

variable {β ε α γ : Type}

/-- Stop. -/
def halt (e : Halt ε) : Reader β ε α := fun _ => .error e

/-- Refuse the input. -/
def fail (e : ε) : Reader β ε α := halt (.error e)

/-- Read the octet at the cursor and move over it. -/
def octet : Reader β ε β := fun c =>
  match c.buf[c.pos]? with
  | none => .error .outside
  | some b => .ok (b, { c with pos := c.pos + 1 })

/-- Read `n` octets and move over them. -/
def octets (n : ℕ) : Reader β ε (List β) := fun c =>
  if n = 0 ∨ c.pos + n ≤ c.buf.length then
    .ok ((c.buf.drop c.pos).take n, { c with pos := c.pos + n })
  else .error .outside

/-- Move the cursor to a position, without reading. -/
def moveTo (pos : ℕ) : Reader β ε Unit := fun c => .ok ((), { c with pos := pos })

/-- Move over `n` octets without reading them. -/
def skip (n : ℕ) : Reader β ε Unit := fun c => .ok ((), { c with pos := c.pos + n })

/-- Run a reader and tell how far it moved the cursor. -/
def measured (x : Reader β ε α) : Reader β ε (α × ℕ) := do
  let c ← get
  let a ← x
  let c' ← get
  pure (a, c'.pos - c.pos)

/-- A buffer with some octets written at a position, as far as it goes. -/
def splice (buf : List β) (pos : ℕ) (bs : List β) : List β :=
  (buf.take pos ++ (bs ++ buf.drop (pos + bs.length))).take buf.length

/-- Overwrite the buffer at a position, without moving. -/
def overwrite (pos : ℕ) (bs : List β) : Reader β ε Unit := fun c =>
  .ok ((), { c with buf := splice c.buf pos bs })

/-! ### Runs -/

/-- A sequence comes to an end when both of its parts do. -/
theorem bind_eq_ok_iff {x : Reader β ε α} {f : α → Reader β ε γ} {c c' : Cursor β} {b : γ} :
    (x >>= f) c = .ok (b, c') ↔ ∃ a c₁, x c = .ok (a, c₁) ∧ f a c₁ = .ok (b, c') := by
  change (x c >>= fun p => f p.1 p.2) = .ok (b, c') ↔ _
  rcases hx : x c with e | ⟨a, c₁⟩
  · simp [bind, Except.bind]
  · constructor
    · intro h
      exact ⟨a, c₁, rfl, h⟩
    · rintro ⟨a', c₂, heq, h⟩
      obtain ⟨rfl, rfl⟩ := Prod.mk.inj (Except.ok.inj heq)
      exact h

/-- A sequence whose first part yields `a` goes on with `f a`. -/
theorem bind_eq_of_ok {x : Reader β ε α} {f : α → Reader β ε γ} {c c' : Cursor β} {a : α}
    (h : x c = .ok (a, c')) : (x >>= f) c = f a c' := by
  change (x c >>= fun p => f p.1 p.2) = _
  rw [h]
  rfl

variable {x : Reader β ε α} {f : α → Reader β ε γ}

/-- A sequence whose first part halts, halts. -/
theorem bind_eq_of_error {c : Cursor β} {e : Halt ε} (h : x c = .error e) :
    (x >>= f) c = .error e := by
  change (x c >>= fun p => f p.1 p.2) = _
  rw [h]
  rfl

/-- Looking at the cursor does not change it. -/
theorem get_bind_apply (f : Cursor β → Reader β ε γ) (c : Cursor β) :
    ((get : Reader β ε (Cursor β)) >>= f) c = f c c := rfl

/-- Moving the cursor, and going on. -/
theorem moveTo_bind_apply (pos : ℕ) (f : Unit → Reader β ε γ) (c : Cursor β) :
    (moveTo pos >>= f) c = f () { c with pos := pos } := rfl

/-! ### What is yielded -/

/-- What the reader yields satisfies `R`. -/
def Ensures (x : Reader β ε α) (R : α → Prop) : Prop := ∀ c a c', x c = .ok (a, c') → R a

theorem Ensures.pure {a : α} {R : α → Prop} (h : R a) :
    Ensures (Pure.pure a : Reader β ε α) R := by
  intro c a' c' heq
  obtain ⟨rfl, -⟩ := Prod.mk.inj (Except.ok.inj heq)
  exact h

theorem Ensures.halt {e : Halt ε} {R : α → Prop} : Ensures (halt e : Reader β ε α) R := by
  intro c a c' h
  cases h

/-- Sequencing, with what the first part yields. -/
theorem Ensures.bind_of {x : Reader β ε α} {f : α → Reader β ε γ} {R : α → Prop} {T : γ → Prop}
    (hx : Ensures x R) (hf : ∀ a, R a → Ensures (f a) T) : Ensures (x >>= f) T := by
  intro c b c' h
  obtain ⟨a, c₁, h₁, h₂⟩ := bind_eq_ok_iff.mp h
  exact hf a (hx c a c₁ h₁) c₁ b c' h₂

/-- Sequencing, whatever the first part yields. -/
theorem Ensures.bind (x : Reader β ε α) {T : γ → Prop} (hf : ∀ a, Ensures (f a) T) :
    Ensures (x >>= f) T :=
  Ensures.bind_of (x := x) (R := fun _ => True) (fun _ _ _ _ => trivial) fun a _ => hf a

/-! ### Readers that leave the buffer alone -/

/-- The reader does not change the buffer. -/
def Keeps (x : Reader β ε α) : Prop := ∀ c a c', x c = .ok (a, c') → c'.buf = c.buf

theorem Keeps.pure (a : α) : Keeps (Pure.pure a : Reader β ε α) := by
  intro c a' c' h
  obtain ⟨-, rfl⟩ := Prod.mk.inj (Except.ok.inj h)
  rfl

theorem Keeps.halt (e : Halt ε) : Keeps (halt e : Reader β ε α) := by
  intro c a c' h
  cases h

theorem Keeps.get : Keeps (MonadState.get : Reader β ε (Cursor β)) := by
  intro c a c' h
  obtain ⟨-, rfl⟩ := Prod.mk.inj (Except.ok.inj h)
  rfl

theorem Keeps.moveTo (pos : ℕ) : Keeps (moveTo pos : Reader β ε Unit) := by
  intro c a c' h
  obtain ⟨-, rfl⟩ := Prod.mk.inj (Except.ok.inj h)
  rfl

theorem Keeps.bind (hx : Keeps x) (hf : ∀ a, Keeps (f a)) : Keeps (x >>= f) := by
  intro c b c' h
  obtain ⟨a, c₁, h₁, h₂⟩ := bind_eq_ok_iff.mp h
  rw [hf a c₁ b c' h₂, hx c a c₁ h₁]

theorem Keeps.octet : Keeps (octet : Reader β ε β) := by
  intro c b c' h
  unfold Reader.octet at h
  split at h
  · cases h
  · obtain ⟨-, rfl⟩ := Prod.mk.inj (Except.ok.inj h)
    rfl

/-- What was read, where the cursor is now, and that it was all inside. -/
theorem octets_eq_ok_iff {n : ℕ} {c c' : Cursor β} {bs : List β} :
    (octets n : Reader β ε (List β)) c = .ok (bs, c') ↔
      (n = 0 ∨ c.pos + n ≤ c.buf.length) ∧ bs = (c.buf.drop c.pos).take n ∧
        c' = { c with pos := c.pos + n } := by
  rw [Reader.octets]
  split
  · next h => simp [h, eq_comm]
  · next h => simp [h]

theorem Ensures.octets (n : ℕ) :
    Ensures (octets n : Reader β ε (List β)) fun bs => bs.length = n := by
  intro c bs c' h
  obtain ⟨hin, rfl, -⟩ := octets_eq_ok_iff.mp h
  rw [length_take, length_drop]
  omega

theorem Keeps.octets (n : ℕ) : Keeps (octets n : Reader β ε (List β)) := by
  intro c bs c' h
  obtain ⟨-, -, rfl⟩ := octets_eq_ok_iff.mp h
  rfl

/-- Writing inside the buffer replaces as many octets as are written. -/
theorem splice_eq {buf bs : List β} {pos : ℕ} (h : pos + bs.length ≤ buf.length) :
    splice buf pos bs = buf.take pos ++ (bs ++ buf.drop (pos + bs.length)) := by
  refine take_of_length_le ?_
  simp only [length_append, length_take, length_drop]
  omega

/-- Octets are replaced by as many others. -/
theorem splice_append (pre post : List β) {bs cs : List β} (h : cs.length = bs.length) :
    splice (pre ++ (bs ++ post)) pre.length cs = pre ++ (cs ++ post) := by
  rw [splice_eq (by simp [h]), take_left, h, ← append_assoc pre bs post,
    ← length_append, drop_left]

/-- Writing nothing changes nothing. -/
theorem splice_nil (buf : List β) (pos : ℕ) : splice buf pos [] = buf := by
  simp [splice]

/-! ### Readers that move forward -/

/-- The reader moves over octets of the buffer, and leaves them alone. -/
def Forward (x : Reader β ε α) : Prop := ∀ c a c', x c = .ok (a, c') →
  c'.buf = c.buf ∧ c.pos ≤ c'.pos ∧ (c.pos ≤ c.buf.length → c'.pos ≤ c.buf.length)

theorem Forward.pure (a : α) : Forward (Pure.pure a : Reader β ε α) := by
  intro c a' c' h
  obtain ⟨-, rfl⟩ := Prod.mk.inj (Except.ok.inj h)
  exact ⟨rfl, Nat.le_refl _, id⟩

theorem Forward.halt (e : Halt ε) : Forward (halt e : Reader β ε α) := by
  intro c a c' h
  cases h

theorem Forward.bind (hx : Forward x) (hf : ∀ a, Forward (f a)) : Forward (x >>= f) := by
  intro c b c' h
  obtain ⟨a, c₁, h₁, h₂⟩ := bind_eq_ok_iff.mp h
  obtain ⟨hbuf, hpos, hin⟩ := hx c a c₁ h₁
  obtain ⟨hbuf', hpos', hin'⟩ := hf a c₁ b c' h₂
  rw [hbuf] at hbuf' hin'
  exact ⟨hbuf', Nat.le_trans hpos hpos', fun h => hin' (hin h)⟩

/-- An octet is read inside of the buffer. -/
theorem octet_eq_ok {c c' : Cursor β} {b : β} (h : (octet : Reader β ε β) c = .ok (b, c')) :
    c.pos < c.buf.length ∧ c' = { c with pos := c.pos + 1 } := by
  unfold Reader.octet at h
  split at h
  · cases h
  · next hb =>
      obtain ⟨-, rfl⟩ := Prod.mk.inj (Except.ok.inj h)
      exact ⟨(List.getElem?_eq_some_iff.mp hb).1, rfl⟩

theorem Forward.octet : Forward (octet : Reader β ε β) := by
  intro c b c' h
  obtain ⟨hin, rfl⟩ := octet_eq_ok h
  exact ⟨rfl, Nat.le_succ _, fun _ => hin⟩

theorem Forward.octets (n : ℕ) : Forward (octets n : Reader β ε (List β)) := by
  intro c bs c' h
  obtain ⟨hin, -, rfl⟩ := octets_eq_ok_iff.mp h
  refine ⟨rfl, Nat.le_add_right _ _, fun hc => ?_⟩
  rcases hin with rfl | hin
  · exact hc
  · exact hin

/-! ### Octets that are parsed -/

/-- On the octets `bs` the reader yields `a`, moves over them and leaves `bs'` there. -/
def Parses (x : Reader β ε α) (bs bs' : List β) (a : α) : Prop :=
  bs'.length = bs.length ∧ ∀ pre post : List β,
    x ⟨pre ++ (bs ++ post), pre.length⟩ =
      .ok (a, ⟨pre ++ (bs' ++ post), pre.length + bs.length⟩)

/-- A run on octets that are left as they are. -/
theorem Parses.run {x : Reader β ε α} {bs : List β} {a : α} (h : Parses x bs bs a)
    (pre post : List β) {buf : List β} {pos : ℕ} (hbuf : buf = pre ++ (bs ++ post))
    (hpos : pos = pre.length) : x ⟨buf, pos⟩ = .ok (a, ⟨buf, pos + bs.length⟩) := by
  rw [hbuf, hpos, h.2 pre post]

/-- A reader yields one value on the same octets. -/
theorem Parses.unique {x : Reader β ε α} {bs bs' bs'' : List β} {a b : α} (ha : Parses x bs bs' a)
    (hb : Parses x bs bs'' b) : a = b := by
  have hrun := (ha.2 [] []).symm.trans (hb.2 [] [])
  exact (Prod.mk.inj (Except.ok.inj hrun)).1

/-- A returned value takes no octets. -/
theorem Parses.pure (a : α) : Parses (Pure.pure a : Reader β ε α) [] [] a :=
  ⟨rfl, fun _ _ => rfl⟩

/-- **Sequencing** joins the octets. -/
theorem Parses.bind {x : Reader β ε α} {f : α → Reader β ε γ} {bs bs' cs cs' : List β} {a : α}
    {b : γ} (hx : Parses x bs bs' a) (hf : Parses (f a) cs cs' b) :
    Parses (x >>= f) (bs ++ cs) (bs' ++ cs') b := by
  refine ⟨by simp [hx.1, hf.1], fun pre post => ?_⟩
  have h₁ := hx.2 pre (cs ++ post)
  have h₂ := hf.2 (pre ++ bs') post
  rw [append_assoc bs, bind_eq_of_ok h₁]
  simp only [length_append, append_assoc, hx.1] at h₂
  rw [h₂, append_assoc, length_append, Nat.add_assoc]

/-- Sequencing with a reader that takes no octets in front. -/
theorem Parses.bind_nil {x : Reader β ε α} {f : α → Reader β ε γ} {cs cs' : List β} {a : α}
    {b : γ} (hx : Parses x [] [] a) (hf : Parses (f a) cs cs' b) :
    Parses (x >>= f) cs cs' b :=
  hx.bind hf

/-- Sequencing with a returned value behind. -/
theorem Parses.bind_pure {x : Reader β ε α} {f : α → γ} {bs bs' : List β} {a : α}
    (hx : Parses x bs bs' a) : Parses (x >>= fun a => Pure.pure (f a)) bs bs' (f a) := by
  have h := hx.bind (f := fun a => Pure.pure (f a)) (Parses.pure (f a))
  rwa [append_nil, append_nil] at h

/-- One octet. -/
theorem Parses.octet (b : β) : Parses (octet : Reader β ε β) [b] [b] b := by
  refine ⟨rfl, fun pre post => ?_⟩
  simp [Reader.octet]

/-- Some octets. -/
theorem Parses.octets {bs : List β} {n : ℕ} (h : bs.length = n) :
    Parses (octets n : Reader β ε (List β)) bs bs bs := by
  refine ⟨rfl, fun pre post => ?_⟩
  simp [Reader.octets, ← h]

/-- Octets that are not looked at. -/
theorem Parses.skip (bs : List β) {n : ℕ} (h : bs.length = n) :
    Parses (skip n : Reader β ε Unit) bs bs () := by
  refine ⟨rfl, fun pre post => ?_⟩
  simp [Reader.skip, ← h]

/-- Looking at the cursor takes no octets; the buffer holds at least those behind it. -/
theorem Parses.get_bind {f : Cursor β → Reader β ε γ} {bs bs' : List β} {a : γ}
    (h : ∀ c : Cursor β, bs.length ≤ c.buf.length → Parses (f c) bs bs' a) :
    Parses ((get : Reader β ε (Cursor β)) >>= f) bs bs' a := by
  refine ⟨(h ⟨bs, 0⟩ (Nat.le_refl _)).1, fun pre post => ?_⟩
  rw [get_bind_apply]
  refine (h _ ?_).2 pre post
  simp only [length_append]
  omega

/-- A reader moves over the octets that it parses. -/
theorem Parses.measured {x : Reader β ε α} {bs bs' : List β} {a : α} (h : Parses x bs bs' a) :
    Parses (measured x) bs bs' (a, bs.length) := by
  refine ⟨h.1, fun pre post => ?_⟩
  rw [Reader.measured, get_bind_apply, bind_eq_of_ok (h.2 pre post), get_bind_apply,
    Nat.add_sub_cancel_left]
  rfl

/-! ### Octets that are refused -/

/-- On the octets `bs`, whatever stands before and behind them, the reader refuses its
input. -/
def Refuses (x : Reader β ε α) (bs : List β) : Prop :=
  ∀ pre post : List β, ∃ e, x ⟨pre ++ (bs ++ post), pre.length⟩ = .error (.error e)

/-- A sequence is refused with its first part. -/
theorem Refuses.bind {x : Reader β ε α} {bs : List β} (hx : Refuses x bs)
    (f : α → Reader β ε γ) (cs : List β) : Refuses (x >>= f) (bs ++ cs) := by
  intro pre post
  obtain ⟨e, he⟩ := hx pre (cs ++ post)
  exact ⟨e, by rw [append_assoc, bind_eq_of_error he]⟩

/-- A sequence is refused behind what its first part parses. -/
theorem Parses.bind_refuses {x : Reader β ε α} {f : α → Reader β ε γ} {bs cs : List β} {a : α}
    (hx : Parses x bs bs a) (hf : Refuses (f a) cs) : Refuses (x >>= f) (bs ++ cs) := by
  intro pre post
  obtain ⟨e, he⟩ := hf (pre ++ bs) post
  refine ⟨e, ?_⟩
  rw [append_assoc, bind_eq_of_ok (hx.2 pre (cs ++ post))]
  rwa [append_assoc, length_append] at he

/-- On the octets `bs` the reader yields `a` if `ok` holds, and refuses its input if not. -/
def Judges (x : Reader β ε α) (ok : Prop) (bs : List β) (a : α) : Prop :=
  (ok → Parses x bs bs a) ∧ (¬ok → Refuses x bs)

section Judges

variable {x : Reader β ε α} {f : α → Reader β ε γ} {ok ok' : Prop} {bs cs : List β} {a : α} {b : γ}

theorem Parses.judges (h : Parses x bs bs a) : Judges x True bs a :=
  ⟨fun _ => h, fun hno => absurd trivial hno⟩

theorem Judges.congr (h : Judges x ok bs a) (hok : ok ↔ ok') : Judges x ok' bs a :=
  ⟨fun h' => h.1 (hok.mpr h'), fun h' => h.2 (mt hok.mp h')⟩

/-- A check in front of a reader. -/
theorem Judges.check {p : Prop} [Decidable p] (e : ε) (hok : ok ↔ ¬p) (h : ok → Parses x bs bs a) :
    Judges (if p then fail e else x) ok bs a := by
  refine ⟨fun h' => ?_, fun h' => ?_⟩
  · rw [if_neg (hok.mp h')]
    exact h h'
  · rw [if_pos (not_not.mp (mt hok.mpr h'))]
    exact fun _ _ => ⟨e, rfl⟩

/-- **Sequencing** asks for what both parts ask for. -/
theorem Judges.bind (hx : Judges x ok bs a) (hf : Judges (f a) ok' cs b) :
    Judges (x >>= f) (ok ∧ ok') (bs ++ cs) b := by
  refine ⟨fun h => (hx.1 h.1).bind (hf.1 h.2), fun h => ?_⟩
  by_cases hok : ok
  · exact (hx.1 hok).bind_refuses (hf.2 fun h' => h ⟨hok, h'⟩)
  · exact (hx.2 hok).bind f cs

theorem Parses.bind_judges (hx : Parses x bs bs a) (hf : Judges (f a) ok cs b) :
    Judges (x >>= f) ok (bs ++ cs) b :=
  (hx.judges.bind hf).congr (true_and ok).to_iff

theorem Judges.bind_parses (hx : Judges x ok bs a) (hf : Parses (f a) cs cs b) :
    Judges (x >>= f) ok (bs ++ cs) b :=
  (hx.bind hf.judges).congr (and_true ok).to_iff

theorem Judges.bind_pure {f : α → γ} (hx : Judges x ok bs a) :
    Judges (x >>= fun a => Pure.pure (f a)) ok bs (f a) := by
  have h := hx.bind_parses (f := fun a => Pure.pure (f a)) (Parses.pure (f a))
  rwa [append_nil] at h

theorem Judges.get_bind {f : Cursor β → Reader β ε γ}
    (h : ∀ c : Cursor β, bs.length ≤ c.buf.length → Judges (f c) ok bs b) :
    Judges ((get : Reader β ε (Cursor β)) >>= f) ok bs b := by
  refine ⟨fun hok => .get_bind fun c hc => (h c hc).1 hok, fun hno pre post => ?_⟩
  rw [get_bind_apply]
  refine (h _ ?_).2 hno pre post
  simp only [length_append]
  omega

theorem Judges.measured (h : Judges x ok bs a) : Judges (measured x) ok bs (a, bs.length) := by
  refine ⟨fun hok => (h.1 hok).measured, fun hno pre post => ?_⟩
  obtain ⟨e, he⟩ := h.2 hno pre post
  exact ⟨e, by rw [Reader.measured, get_bind_apply, bind_eq_of_error he]⟩

end Judges

/-! ### Staying inside -/

/-- The reader reads nothing outside the buffer, and writes to no other memory. -/
def Inside (x : Reader β ε α) (c : Cursor β) : Prop :=
  x c ≠ .error .outside ∧ x c ≠ .error .overrun

theorem inside_pure (a : α) (c : Cursor β) : Inside (Pure.pure a : Reader β ε α) c :=
  ⟨nofun, nofun⟩

end Reader

end SmithSnmp.Lib
