import Mathlib.Algebra.Order.BigOperators.Group.List
import Mathlib.Algebra.Ring.Nat
import Mathlib.Data.List.Infix
import Mathlib.Tactic.Common

/-!
# Receivers that Take a Chunk for a Message

A stream of messages arrives in chunks, each of them at the start of a buffer with some
residue behind it, and a receiver hands over at most one message from the start of each
buffer. It does not know where the chunk ends. Over an arbitrary octet type with two values:

* `map_fst_eq_of_handed`: if the receiver hands over the same messages of the same total
  length whatever the residues are, the chunks are these messages.
-/

namespace SmithSnmp.Lib

open List

variable {β α : Type}

variable {chunks : List (List β)} {b₀ b₁ : β} {messages : List (List β × α)}

/-- The messages handed over for chunks with residues behind them. -/
def handed (receive : List β → Option (List β × α)) (reads : List (List β × List β)) :
    List (List β × α) :=
  reads.filterMap fun read => receive (read.1 ++ read.2)

/-- Chunks in buffers of size `n`. -/
def Reads (n : ℕ) (chunks : List (List β)) (reads : List (List β × List β)) : Prop :=
  reads.map Prod.fst = chunks ∧ ∀ read ∈ reads, read.1.length + read.2.length = n

/-- Chunks with one octet all over the rest of the buffer. -/
def padded (n : ℕ) (b : β) (chunk : List β) : List β × List β :=
  (chunk, List.replicate (n - chunk.length) b)

variable {receive : List β → Option (List β × α)} {n : ℕ}

theorem handed_cons (read : List β × List β) (reads : List (List β × List β)) :
    handed receive (read :: reads) =
      (receive (read.1 ++ read.2)).toList ++ handed receive reads := by
  rw [handed, filterMap_cons]
  cases receive (read.1 ++ read.2) with
  | none => rfl
  | some message => rfl

theorem Reads.cons {chunk residue : List β} {reads : List (List β × List β)}
    (hn : chunk.length + residue.length = n) (h : Reads n chunks reads) :
    Reads n (chunk :: chunks) ((chunk, residue) :: reads) := by
  refine ⟨by rw [map_cons, h.1], fun read hread => ?_⟩
  obtain rfl | hread := mem_cons.mp hread
  · exact hn
  · exact h.2 read hread

theorem reads_padded (b : β) (h : ∀ chunk ∈ chunks, chunk.length < n) :
    Reads n chunks (chunks.map (padded n b)) := by
  refine ⟨?_, fun read hread => ?_⟩
  · rw [map_map]
    exact map_id _
  · obtain ⟨chunk, hchunk, rfl⟩ := mem_map.mp hread
    have hlt := h chunk hchunk
    simp only [padded, length_replicate]
    omega

/-- A message at the start of two buffers whose residues begin differently does not reach
into the residues. -/
theorem isPrefix_chunk {message chunk : List β} {k : ℕ} (hne : b₀ ≠ b₁)
    (h₀ : message <+: chunk ++ List.replicate (k + 1) b₀)
    (h₁ : message <+: chunk ++ List.replicate (k + 1) b₁) : message <+: chunk := by
  by_cases hle : message.length ≤ chunk.length
  · exact prefix_of_prefix_length_le h₀ (prefix_append _ _) hle
  · exfalso
    have hstart : ∀ b : β, message <+: chunk ++ List.replicate (k + 1) b →
        chunk ++ [b] <+: message := by
      intro b h
      have hchunk : chunk ++ [b] <+: chunk ++ List.replicate (k + 1) b := by
        rw [replicate_succ]
        exact (prefix_append_right_inj chunk).mpr ⟨_, rfl⟩
      refine prefix_of_prefix_length_le hchunk h ?_
      rw [length_append, length_singleton]
      omega
    have heq := (prefix_of_prefix_length_le (hstart b₀ h₀) (hstart b₁ h₁)
      (by simp)).eq_of_length (by simp)
    exact hne (singleton_inj.mp (append_cancel_left heq))

/-- What is handed over whatever the residues are is no longer than the chunks; if it is as
long, it is the chunks. -/
theorem handed_length_le (hne : b₀ ≠ b₁)
    (hreceive : ∀ buf message a, receive buf = some (message, a) → message <+: buf)
    (hchunks : ∀ chunk ∈ chunks, chunk ≠ [] ∧ chunk.length < n)
    (h : ∀ reads, Reads n chunks reads → handed receive reads = messages) :
    (messages.map fun m => m.1.length).sum ≤ (chunks.map List.length).sum ∧
      ((messages.map fun m => m.1.length).sum = (chunks.map List.length).sum →
        messages.map Prod.fst = chunks) := by
  induction chunks generalizing messages with
  | nil =>
    have hnil := h [] ⟨rfl, fun read hread => absurd hread not_mem_nil⟩
    subst hnil
    exact ⟨Nat.le_refl _, fun _ => rfl⟩
  | cons chunk chunks ih =>
    obtain ⟨hnonempty, hlt⟩ := hchunks chunk mem_cons_self
    have hrest := fun c hc => hchunks c (mem_cons_of_mem chunk hc)
    obtain ⟨k, hk⟩ : ∃ k, n - chunk.length = k + 1 := ⟨n - chunk.length - 1, by omega⟩
    have hfill : ∀ b : β, chunk.length + (List.replicate (k + 1) b).length = n := fun b => by
      rw [length_replicate]
      omega
    have hall : ∀ b reads, Reads n chunks reads →
        (receive (chunk ++ List.replicate (k + 1) b)).toList ++ handed receive reads =
          messages := fun b reads hreads => by
      rw [← h _ (hreads.cons (hfill b)), handed_cons]
    have hreads₀ := reads_padded b₀ fun c hc => (hrest c hc).2
    -- the chunks behind this one give the same whatever the residues are
    obtain ⟨hle, heq⟩ := ih hrest fun reads hreads =>
      append_cancel_left ((hall b₀ reads hreads).trans (hall b₀ _ hreads₀).symm)
    -- and so does this one
    have hsame := append_cancel_right ((hall b₀ _ hreads₀).trans (hall b₁ _ hreads₀).symm)
    have hmessages := hall b₀ _ hreads₀
    rw [map_cons, sum_cons]
    have hpos : 0 < chunk.length := length_pos_of_ne_nil hnonempty
    rcases hr : receive (chunk ++ List.replicate (k + 1) b₀) with _ | ⟨message, a⟩
    · rw [hr, Option.toList_none, nil_append] at hmessages
      rw [← hmessages]
      exact ⟨by omega, fun hsum => by omega⟩
    · rw [hr, Option.toList_some, singleton_append] at hmessages
      have hr₁ : receive (chunk ++ List.replicate (k + 1) b₁) = some (message, a) := by
        rw [hr, Option.toList_some] at hsame
        exact Option.toList_eq_singleton_iff.mp hsame.symm
      have hpre := isPrefix_chunk hne (hreceive _ _ _ hr) (hreceive _ _ _ hr₁)
      have hlen := hpre.length_le
      rw [← hmessages, map_cons, sum_cons, map_cons]
      dsimp only
      refine ⟨by omega, fun hsum => ?_⟩
      rw [heq (by omega), hpre.eq_of_length (by omega)]

/-- **Messages in chunks.** If messages as long as the chunks together are handed over
whatever the residues are, they are the chunks. -/
theorem map_fst_eq_of_handed (hne : b₀ ≠ b₁)
    (hreceive : ∀ buf message a, receive buf = some (message, a) → message <+: buf)
    (hchunks : ∀ chunk ∈ chunks, chunk ≠ [] ∧ chunk.length < n)
    (hstream : chunks.flatten = (messages.map Prod.fst).flatten)
    (h : ∀ reads, Reads n chunks reads → handed receive reads = messages) :
    messages.map Prod.fst = chunks := by
  refine (handed_length_le hne hreceive hchunks h).2 ?_
  have hlen := congrArg List.length hstream
  rw [length_flatten, length_flatten, map_map] at hlen
  exact hlen.symm

/-- Chunks that the receiver takes for what they are, whatever is behind them. -/
theorem handed_eq_of_receives
    (hmessages : ∀ m ∈ messages, ∀ residue, receive (m.1 ++ residue) = some m)
    {reads : List (List β × List β)} (hreads : reads.map Prod.fst = messages.map Prod.fst) :
    handed receive reads = messages := by
  induction messages generalizing reads with
  | nil => rw [map_eq_nil_iff.mp hreads, handed, filterMap_nil]
  | cons m messages ih =>
    obtain ⟨read, reads, rfl, hread, hreads⟩ := map_eq_cons_iff.mp hreads
    rw [handed_cons, hread, hmessages m mem_cons_self,
      ih (fun m' hm' => hmessages m' (mem_cons_of_mem m hm')) hreads]
    rfl

end SmithSnmp.Lib
