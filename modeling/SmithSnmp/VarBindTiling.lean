import SmithSnmp.Bounds

/-!
# The Tiling of the Varbind List

`var_bind_parse` moves over a varbind by the length that its header declares and takes as much off
the length of the list, while `var_bind_alloc` reads the OID and the value behind the header
without looking at that length. The rounds of the loop are recorded here with what the loop
declares and what it reads: forgetting them gives the loop (`varBindParse_eq`).

The lengths are of 32 bits and only their sum is tested, for being zero. So nothing is lost when
each varbind fills what it declares; when one of them does not, the list need not be tiled at all,
and the counter may wrap around below zero on the way.
-/

namespace SmithSnmp

open Lib Reader

variable {vbListLen : UInt32} {fuel : ℕ} {c c' : Cursor UInt8}

/-! ### Rounds -/

/-- A round of the loop of `var_bind_parse`. -/
structure VarBindRound where
  /-- `vb_list_len` before the round -/
  remaining : UInt32
  /-- the octets of the length, `len_len` -/
  lenLen : ℕ
  vbLen : UInt32
  /-- the octets of the OID and of the value, with their headers -/
  content : ℕ
  vb : VarBind
deriving DecidableEq, Repr

/-- The size of the varbind as it is declared. -/
def VarBindRound.size (r : VarBindRound) : ℕ := 1 + r.lenLen + r.vbLen.toNat

/-- What the counter is set to. -/
def VarBindRound.next (r : VarBindRound) : UInt32 :=
  r.remaining - (1 + UInt32.ofNat r.lenLen + r.vbLen)

/-- The header and the content of a varbind; the cursor is left behind what is declared. -/
def varBindRound (vbListLen : UInt32) : MsgReader VarBindRound := do
  readTag asn1TagSeq .vbSeq
  let start ← get
  let vbLen ← readLength
  let c ← get
  let vb ← varBindAlloc
  let c' ← get
  moveTo (c.pos + vbLen.toNat)
  pure ⟨vbListLen, c.pos - start.pos, vbLen, c'.pos - c.pos, vb⟩

/-- The loop of `var_bind_parse` with its rounds. -/
def varBindRounds : ℕ → UInt32 → MsgReader (List VarBindRound)
  | fuel, vbListLen =>
    if vbListLen = 0 then pure []
    else match fuel with
      | 0 => fun _ => .error .outside
      | fuel + 1 => do
          let r ← varBindRound vbListLen
          let rs ← varBindRounds fuel r.next
          pure (r :: rs)

/-- The list with its declared length and its rounds. -/
structure VarBindTrace where
  listLen : UInt32
  /-- the rounds, the first one first -/
  rounds : List VarBindRound
deriving DecidableEq, Repr

/-- `var_bind_parse` with its rounds. -/
def varBindTrace : MsgReader VarBindTrace := do
  let vbListLen ← readOpen asn1TagSeq .vbListSeq
  let c ← get
  let rounds ← varBindRounds (c.buf.length - c.pos) vbListLen
  pure ⟨vbListLen, rounds⟩

theorem varBindLoop_eq (fuel : ℕ) (vbListLen : UInt32) (vbs : List VarBind) :
    varBindLoop fuel vbListLen vbs =
      varBindRounds fuel vbListLen >>= fun rs => pure (vbs ++ rs.map VarBindRound.vb) := by
  induction fuel generalizing vbListLen vbs with
  | zero =>
    rw [varBindLoop, varBindRounds]
    split
    · simp
    · rfl
  | succ fuel ih =>
    rw [varBindLoop, varBindRounds]
    split
    · simp
    · simp only [varBindRound, bind_assoc, pure_bind, ih, VarBindRound.next, List.map_cons,
        List.append_assoc, List.singleton_append]
      rfl

/-- **Forgetting the rounds gives the parser.** -/
theorem varBindParse_eq (sdg : SnmpDatagram) :
    varBindParse sdg = varBindTrace >>= fun t =>
      pure { sdg with vbListLen := 0, vbInList := t.rounds.map VarBindRound.vb } := by
  simp only [varBindParse, varBindTrace, varBindLoop_eq, bind_assoc, pure_bind, List.nil_append]

/-! ### The counter -/

/-- The counter of each round is what the round before has left, and nothing is left in the end. -/
def Counts : UInt32 → List VarBindRound → Prop
  | vbListLen, [] => vbListLen = 0
  | vbListLen, r :: rs => r.remaining = vbListLen ∧ Counts r.next rs

/-- The declared sizes of some rounds. -/
def totalSize (rs : List VarBindRound) : ℕ := (rs.map VarBindRound.size).sum

theorem totalSize_cons (r : VarBindRound) (rs : List VarBindRound) :
    totalSize (r :: rs) = r.size + totalSize rs := by
  simp [totalSize]

variable {rs : List VarBindRound}

theorem Counts.total (h : Counts vbListLen rs) : totalSize rs % 2 ^ 32 = vbListLen.toNat := by
  induction rs generalizing vbListLen with
  | nil =>
    rw [Counts] at h
    rw [h]
    rfl
  | cons r rs ih =>
    obtain ⟨hr, hrest⟩ := h
    have hsize : (1 + UInt32.ofNat r.lenLen + r.vbLen).toNat = r.size % 2 ^ 32 := by
      simp only [UInt32.toNat_add, UInt32.toNat_one, UInt32.toNat_ofNat', VarBindRound.size]
      omega
    have hnext : r.next.toNat =
        (2 ^ 32 - (1 + UInt32.ofNat r.lenLen + r.vbLen).toNat + r.remaining.toNat) % 2 ^ 32 :=
      UInt32.toNat_sub _ _
    have hlt := r.remaining.toNat_lt
    have hih := ih hrest
    rw [← hr, totalSize_cons]
    omega

/-- Unless the sizes add up to too much, every round takes off less than there is. -/
theorem Counts.size_le (h : Counts vbListLen rs) (hlt : totalSize rs < 2 ^ 32) :
    ∀ r ∈ rs, r.size ≤ r.remaining.toNat := by
  induction rs generalizing vbListLen with
  | nil =>
    intro r hr
    cases hr
  | cons r rs ih =>
    have htotal := h.total
    obtain ⟨hr, hrest⟩ := h
    rw [totalSize_cons] at hlt htotal
    rw [Nat.mod_eq_of_lt hlt, ← hr] at htotal
    intro r' hr'
    rcases List.mem_cons.mp hr' with rfl | hr'
    · omega
    · exact ih hrest (by omega) r' hr'

/-- The loop ends when nothing is left. -/
theorem varBindRounds_nil (h : varBindRounds fuel vbListLen c = .ok ([], c')) : vbListLen = 0 := by
  cases fuel with
  | zero =>
    rw [varBindRounds] at h
    split at h
    · next hlen => exact hlen
    · cases h
  | succ fuel =>
    rw [varBindRounds] at h
    split at h
    · next hlen => exact hlen
    · obtain ⟨r, c₁, -, h⟩ := bind_eq_ok_iff.mp h
      obtain ⟨rs, c₂, -, h⟩ := bind_eq_ok_iff.mp h
      obtain ⟨hrs, -⟩ := Prod.mk.inj (Except.ok.inj h)
      cases hrs

/-- The first round, and those behind it. -/
theorem varBindRounds_cons {r : VarBindRound}
    (h : varBindRounds fuel vbListLen c = .ok (r :: rs, c')) :
    ∃ fuel' c₁, varBindRound vbListLen c = .ok (r, c₁) ∧
      varBindRounds fuel' r.next c₁ = .ok (rs, c') := by
  cases fuel with
  | zero =>
    rw [varBindRounds] at h
    split at h
    · cases h
    · cases h
  | succ fuel =>
    rw [varBindRounds] at h
    split at h
    · cases h
    · obtain ⟨r', c₁, hround, h⟩ := bind_eq_ok_iff.mp h
      obtain ⟨rs', c₂, hrest, h⟩ := bind_eq_ok_iff.mp h
      obtain ⟨hrs, rfl⟩ := Prod.mk.inj (Except.ok.inj h)
      obtain ⟨rfl, rfl⟩ := List.cons.inj hrs
      exact ⟨fuel, c₁, hround, hrest⟩

theorem varBindRounds_counts (h : varBindRounds fuel vbListLen c = .ok (rs, c')) :
    Counts vbListLen rs := by
  induction rs generalizing fuel vbListLen c with
  | nil => exact varBindRounds_nil h
  | cons r rs ih =>
    obtain ⟨fuel', c₁, hround, hrest⟩ := varBindRounds_cons h
    have hremaining : Ensures (varBindRound vbListLen) fun r => r.remaining = vbListLen :=
      Ensures.bind _ fun _ => Ensures.bind _ fun _ => Ensures.bind _ fun _ =>
        Ensures.bind _ fun _ => Ensures.bind _ fun _ => Ensures.bind _ fun _ =>
          Ensures.bind _ fun _ => Ensures.pure rfl
    exact ⟨hremaining c r c₁ hround, ih hrest⟩

/-! ### The octets -/

theorem readLength_forward : Forward readLength := by
  intro c len c' h
  rw [readLength] at h
  split at h
  · cases h
  · next len k hdec =>
      obtain ⟨-, rfl⟩ := Prod.mk.inj (Except.ok.inj h)
      have hk : k ≤ (c.buf.drop c.pos).length := by
        revert hdec
        cases c.buf.drop c.pos with
        | nil => simp [berLengthDec]
        | cons b bs =>
          simp only [berLengthDec, List.length_cons]
          split
          · split
            · simp
            · rintro ⟨⟩
              omega
          · rintro ⟨⟩
            omega
      rw [List.length_drop] at hk
      exact ⟨rfl, Nat.le_add_right _ _, fun hin => by dsimp only; omega⟩

theorem readTag_forward (tag : UInt8) (err : SnmpErrCode) : Forward (readTag tag err) := by
  refine Forward.octet.bind fun t => ?_
  split
  · exact Forward.halt _
  · exact Forward.pure ()

theorem readTag_eq_ok {tag : UInt8} {err : SnmpErrCode} {u : Unit}
    (h : readTag tag err c = .ok (u, c')) :
    c.pos < c.buf.length ∧ c' = { c with pos := c.pos + 1 } := by
  obtain ⟨t, c₁, hoct, h⟩ := bind_eq_ok_iff.mp h
  split at h
  · cases h
  · obtain ⟨-, rfl⟩ := Prod.mk.inj (Except.ok.inj h)
    exact octet_eq_ok hoct

/-- A varbind is read inside of the buffer. -/
theorem varBindAlloc_forward : Forward varBindAlloc := by
  have hcheck : ∀ err, Forward (unlessErr err (pure () : MsgReader Unit)) := by
    rintro (_ | err)
    · exact Forward.pure ()
    · exact Forward.halt _
  have hopen : Forward (readOpen asn1TagObjid .vbOidType) :=
    (readTag_forward _ _).bind fun _ => readLength_forward
  exact hopen.bind fun _ => (Forward.octets _).bind fun _ => (hcheck _).bind fun _ =>
    Forward.octet.bind fun _ => readLength_forward.bind fun _ => (hcheck _).bind fun _ =>
      (Forward.octets _).bind fun _ => Forward.pure _

/-- A round moves over what is declared; what it reads is inside of the buffer. -/
theorem varBindRound_pos {r : VarBindRound} (h : varBindRound vbListLen c = .ok (r, c')) :
    c'.buf = c.buf ∧ c'.pos = c.pos + r.size ∧
      c.pos + (1 + r.lenLen + r.content) ≤ c.buf.length := by
  obtain ⟨u, c₁, htag, h⟩ := bind_eq_ok_iff.mp h
  rw [get_bind_apply] at h
  obtain ⟨vbLen, c₂, hlen, h⟩ := bind_eq_ok_iff.mp h
  rw [get_bind_apply] at h
  obtain ⟨vb, c₃, halloc, h⟩ := bind_eq_ok_iff.mp h
  rw [get_bind_apply, moveTo_bind_apply] at h
  obtain ⟨rfl, rfl⟩ := Prod.mk.inj (Except.ok.inj h)
  obtain ⟨hin, rfl⟩ := readTag_eq_ok htag
  obtain ⟨hbuf₂, hpos₂, hin₂⟩ := readLength_forward _ _ _ hlen
  obtain ⟨hbuf₃, hpos₃, hin₃⟩ := varBindAlloc_forward _ _ _ halloc
  rw [hbuf₂] at hbuf₃ hin₃
  have hend := hin₃ (hin₂ hin)
  dsimp only [VarBindRound.size] at hpos₂ hend ⊢
  exact ⟨hbuf₃, by omega, by omega⟩

/-- Rounds that fill what they declare move over octets of the buffer. -/
theorem varBindRounds_total (h : varBindRounds fuel vbListLen c = .ok (rs, c'))
    (hfill : ∀ r ∈ rs, r.content = r.vbLen.toNat) (hc : c.pos ≤ c.buf.length) :
    c.pos + totalSize rs ≤ c.buf.length := by
  induction rs generalizing fuel vbListLen c with
  | nil => exact hc
  | cons r rs ih =>
    obtain ⟨fuel', c₁, hround, hrest⟩ := varBindRounds_cons h
    obtain ⟨hbuf, hpos, hin⟩ := varBindRound_pos hround
    obtain ⟨hr, hfill'⟩ := List.forall_mem_cons.mp hfill
    have hsize : r.size = 1 + r.lenLen + r.content := by rw [VarBindRound.size, hr]
    have hrun := ih hrest hfill' (by rw [hbuf]; omega)
    rw [hbuf] at hrun
    rw [totalSize_cons]
    omega

/-! ### Tiling -/

/-- The varbinds tile the list: over the natural numbers their sizes add up to its length, the OID
and the value of each of them fill its length, and the counter does not go below zero. -/
structure VarBindTrace.Tiled (t : VarBindTrace) : Prop where
  total : totalSize t.rounds = t.listLen.toNat
  filled : ∀ r ∈ t.rounds, r.content = r.vbLen.toNat
  counter : ∀ r ∈ t.rounds, r.size ≤ r.remaining.toNat

/-- **The tiling of the list.** Whenever `var_bind_parse` accepts, its varbinds tile the list if and
only if each of them fills the length that it declares, and the declared sizes add up to less than
`2 ^ 32`; and they do not add up to more than there are octets in the message, if all of them are
filled. -/
theorem varBinds_tiled_iff (sdg sdg' : SnmpDatagram) (c c' : Cursor UInt8)
    (h : varBindParse sdg c = .ok (sdg', c')) :
    ∃ t, varBindTrace c = .ok (t, c') ∧ sdg'.vbInList = t.rounds.map VarBindRound.vb ∧
      (t.Tiled ↔ (∀ r ∈ t.rounds, r.content = r.vbLen.toNat) ∧ totalSize t.rounds < 2 ^ 32) ∧
      ((∀ r ∈ t.rounds, r.content = r.vbLen.toNat) → totalSize t.rounds ≤ c.buf.length) := by
  rw [varBindParse_eq] at h
  obtain ⟨t, c₁, htrace, h⟩ := bind_eq_ok_iff.mp h
  obtain ⟨rfl, rfl⟩ := Prod.mk.inj (Except.ok.inj h)
  refine ⟨t, htrace, rfl, ?_⟩
  obtain ⟨listLen, c₂, hopen, hrun⟩ := bind_eq_ok_iff.mp htrace
  rw [get_bind_apply] at hrun
  obtain ⟨rounds, c₃, hrounds, hrun⟩ := bind_eq_ok_iff.mp hrun
  obtain ⟨rfl, rfl⟩ := Prod.mk.inj (Except.ok.inj hrun)
  have hcounts := varBindRounds_counts hrounds
  refine ⟨⟨fun ht => ⟨ht.filled, ?_⟩, fun h => ⟨?_, h.1, ?_⟩⟩, fun hfill => ?_⟩
  · rw [ht.total]
    exact listLen.toNat_lt
  · rw [← hcounts.total, Nat.mod_eq_of_lt h.2]
  · exact hcounts.size_le h.2
  · obtain ⟨u, c₄, htag, hlen⟩ := bind_eq_ok_iff.mp hopen
    obtain ⟨hin, rfl⟩ := readTag_eq_ok htag
    obtain ⟨hbuf, -, hin'⟩ := readLength_forward _ _ _ hlen
    have htotal := varBindRounds_total hrounds hfill (by rw [hbuf]; exact hin' hin)
    rw [hbuf] at htotal
    exact (Nat.le_add_left _ _).trans htotal

/-- One varbind, `1.3` without a value. -/
theorem varBinds_tiled_single :
    let b : List UInt8 := [0x30, 7, 0x30, 5, 6, 1, 0x2b, 5, 0]
    ∃ t, varBindTrace ⟨b, 0⟩ = .ok (t, ⟨b, 9⟩) ∧ t.Tiled := by
  intro b
  have hparse : varBindParse {} ⟨b, 0⟩ =
      .ok ({ vbInList := [{ oid := [1, 3], valueType := 5, value := [] }] }, ⟨b, 9⟩) := by
    decide +kernel
  obtain ⟨t, ht, -, htiled, -⟩ := varBinds_tiled_iff _ _ _ _ hparse
  refine ⟨t, ht, htiled.mpr ?_⟩
  have hrun : varBindTrace ⟨b, 0⟩ = .ok (⟨7, [⟨7, 1, 5, 5,
      { oid := [1, 3], valueType := 5, value := [] }⟩]⟩, ⟨b, 9⟩) := by
    decide +kernel
  rw [hrun] at ht
  obtain ⟨rfl, -⟩ := Prod.mk.inj (Except.ok.inj ht)
  decide

/-- A varbind that declares two octets more than it has, and one that declares `2 ^ 32 - 1` octets
in a list of five: the counter wraps around to zero. Both lists are accepted. -/
theorem varBinds_not_tiled :
    let slack : List UInt8 := [0x30, 9, 0x30, 7, 6, 1, 0x2b, 5, 0, 0xaa, 0xaa]
    let wrap : List UInt8 := [0x30, 5, 0x30, 0x84, 0xff, 0xff, 0xff, 0xff, 6, 1, 0x2b, 5, 0]
    let vb : VarBind := { oid := [1, 3], valueType := 5, value := [] }
    varBindParse {} ⟨slack, 0⟩ = .ok ({ vbInList := [vb] }, ⟨slack, 11⟩) ∧
      varBindTrace ⟨slack, 0⟩ = .ok (⟨9, [⟨9, 1, 7, 5, vb⟩]⟩, ⟨slack, 11⟩) ∧
      varBindParse {} ⟨wrap, 0⟩ = .ok ({ vbInList := [vb] }, ⟨wrap, 2 ^ 32 + 7⟩) ∧
      varBindTrace ⟨wrap, 0⟩ =
        .ok (⟨5, [⟨5, 5, 0xffffffff, 5, vb⟩]⟩, ⟨wrap, 2 ^ 32 + 7⟩) ∧
      ¬ VarBindTrace.Tiled ⟨9, [⟨9, 1, 7, 5, vb⟩]⟩ ∧
      ¬ VarBindTrace.Tiled ⟨5, [⟨5, 5, 0xffffffff, 5, vb⟩]⟩ := by
  intro slack wrap vb
  refine ⟨by decide +kernel, by decide +kernel, by decide +kernel, by decide +kernel,
    fun h => ?_, fun h => ?_⟩
  · exact absurd (h.filled _ List.mem_cons_self) (by decide)
  · exact absurd h.total (by decide)

end SmithSnmp
