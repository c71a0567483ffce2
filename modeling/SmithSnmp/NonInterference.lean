import SmithSnmp.MsgTrace
import SmithSnmp.Walk
import SmithSnmp.Words

/-!
# Reads Reveal Nothing Outside the Views

Two agents, over MIB trees of different shapes and with different handlers, answer the
requests of one principal. When GET gives the same on every OID that the read views of the
principal cover, and the trees have the same instances there, the two runs are in step: every
search of a view ends alike (`Alike`), although the traversals go through different nodes and
call different handlers, and the responses are equal.

A principal without views is searched for nowhere, and the answers are made of the request.
So two relations are carried from one varbind to the next: equality in that case, and
otherwise nothing but the kind of the request, as every search sets what is shown of its
result.

## Main results

* `searchExact_alike`, `searchNext_alike`: the search of one view ends alike.
* `snmpRequestDispatch_noninterference`: the two agents answer alike.
-/

namespace SmithSnmp

open List Lib MibNode Traced

variable {σ τ : Type}

variable {a b : OidSearchRes} {sdg : SnmpDatagram}

/-! ### Reading a union -/

/-- The bytes that are stored for a value are those that its encoder reads. -/
theorem luaCopy_length (tag : UInt8) (val : LuaVal) :
    (luaCopy tag val).2.length =
      if tag = asn1TagOctstr ∨ tag = asn1TagIpaddr then (luaCopy tag val).1.toNat
      else if tag = asn1TagObjid then 4 * (luaCopy tag val).1.toNat
      else 4 := by
  simp only [luaCopy]
  split
  · next h => simp [h, Nat.mod_le]
  · next hoct =>
      split
      · next h => simp [h, Nat.mod_le]
      · next hip =>
          rw [if_neg (not_or.mpr ⟨hoct, hip⟩)]
          split
          · have hbytes : ∀ n : Int, (leBytes (UInt32.ofInt n)).length = 4 := fun _ => rfl
            simp [length_flatMap, hbytes, Nat.mod_le, Nat.mul_comm]
          · rfl

/-- What is encoded does not depend on what the union held before. -/
theorem berValue_pokeBytes (old : List UInt8) (tag : UInt8) (val : LuaVal) :
    berValueEnc (pokeBytes old (luaCopy tag val).2) (luaCopy tag val).1.toNat tag =
        berValueEnc (luaCopy tag val).2 (luaCopy tag val).1.toNat tag ∧
      berValueEncTry (pokeBytes old (luaCopy tag val).2) (luaCopy tag val).1.toNat tag =
        berValueEncTry (luaCopy tag val).2 (luaCopy tag val).1.toNat tag := by
  have hlen := luaCopy_length tag val
  have hword : tag = asn1TagInt ∨ tag = asn1TagCnt ∨ tag = asn1TagGau ∨ tag = asn1TagTimeticks →
      peekWord (pokeBytes old (luaCopy tag val).2) = peekWord (luaCopy tag val).2 := by
    intro htag
    refine peekWord_append ?_ _
    rw [hlen]
    rcases htag with rfl | rfl | rfl | rfl <;> exact le_rfl
  have hoid : tag = asn1TagObjid →
      peekOid (pokeBytes old (luaCopy tag val).2) (luaCopy tag val).1.toNat =
        peekOid (luaCopy tag val).2 (luaCopy tag val).1.toNat := by
    rintro rfl
    exact peekOid_append hlen.ge _
  have hstr : tag = asn1TagOctstr ∨ tag = asn1TagIpaddr →
      peekBytes (pokeBytes old (luaCopy tag val).2) (luaCopy tag val).1.toNat =
        peekBytes (luaCopy tag val).2 (luaCopy tag val).1.toNat := by
    intro htag
    rw [if_pos htag] at hlen
    exact peekBytes_append hlen.ge _
  simp only [berValueEnc, berValueEncTry]
  split
  · next h => rw [hword (h.imp_right .inl)]; exact ⟨rfl, rfl⟩
  · split
    · next h => rw [hword (.inr (.inr h))]; exact ⟨rfl, rfl⟩
    · split
      · next h => rw [hoid h]; exact ⟨rfl, rfl⟩
      · split
        · next h => rw [hstr h]; exact ⟨rfl, rfl⟩
        · exact ⟨rfl, rfl⟩

theorem berValue_invalid {tag : UInt8} (h : asn1TagValid tag = false) (mem : List UInt8)
    (len : ℕ) : berValueEnc mem len tag = [] ∧ berValueEncTry mem len tag = some 0 := by
  have hne : ∀ tag', asn1TagValid tag' = true → tag ≠ tag' := by
    rintro _ hvalid rfl
    rw [h] at hvalid
    cases hvalid
  simp [berValueEnc, berValueEncTry, hne asn1TagInt rfl, hne asn1TagCnt rfl,
    hne asn1TagGau rfl, hne asn1TagTimeticks rfl, hne asn1TagObjid rfl, hne asn1TagOctstr rfl,
    hne asn1TagIpaddr rfl]

/-! ### Outcomes -/

/-- The variable holds an outcome: a tag, with a value when it is a valid one. -/
def Variable.Shows (var : Variable) (out : UInt8 × Option LuaVal) : Prop :=
  var.tag = out.1 ∧
    match out.2 with
    | none => asn1TagValid out.1 = false
    | some val => var.Holds val out.1

/-- Two search results that are answered alike. -/
structure Alike (a b : OidSearchRes) : Prop where
  oid : a.oid = b.oid
  errStat : a.errStat = b.errStat
  tag : a.var.tag = b.var.tag
  size : berValueEncTry a.var.value a.var.len.toNat a.var.tag =
    berValueEncTry b.var.value b.var.len.toNat b.var.tag
  value : berValueEnc a.var.value a.var.len.toNat a.var.tag =
    berValueEnc b.var.value b.var.len.toNat b.var.tag

theorem Alike.refl (a : OidSearchRes) : Alike a a := ⟨rfl, rfl, rfl, rfl, rfl⟩

/-- What is encoded of a variable is determined by the outcome it holds. -/
theorem Variable.Shows.encoded {var : Variable} {out : UInt8 × Option LuaVal}
    (h : var.Shows out) :
    (berValueEnc var.value var.len.toNat var.tag, berValueEncTry var.value var.len.toNat var.tag) =
      match out.2 with
      | none => ([], some 0)
      | some val =>
        (berValueEnc (luaCopy out.1 val).2 (luaCopy out.1 val).1.toNat out.1,
          berValueEncTry (luaCopy out.1 val).2 (luaCopy out.1 val).1.toNat out.1) := by
  obtain ⟨tag, val⟩ := out
  obtain ⟨htag, hout⟩ := h
  cases val with
  | none =>
    obtain ⟨henc, htry⟩ := berValue_invalid hout var.value var.len.toNat
    rw [htag, henc, htry]
  | some val =>
    obtain ⟨-, hlen, old, hvalue⟩ := hout
    obtain ⟨henc, htry⟩ := berValue_pokeBytes old tag val
    rw [htag, hlen, hvalue, henc, htry]

theorem alike_of_shows {out : UInt8 × Option LuaVal} (hoid : a.oid = b.oid)
    (herr : a.errStat = b.errStat) (ha : a.var.Shows out) (hb : b.var.Shows out) : Alike a b := by
  obtain ⟨henc, htry⟩ := Prod.mk.inj (ha.encoded.trans hb.encoded.symm)
  exact ⟨hoid, herr, ha.1.trans hb.1.symm, htry, henc⟩

/-! ### Two trees -/

/-- Handlers without errors, in terms of what they give for GET: `G` is the value and the tag
of an instance part, the tag is invalid or can be copied, and GETNEXT enumerates the
instances `I` with the values of GET. -/
structure Serves (h : Handlers σ) (root : MibNode) (I : Int → Set Oid)
    (G : Int → Oid → LuaVal × UInt8) : Prop where
  /-- GET does not fail -/
  get : ∀ p callback, (p, callback) ∈ registered root → ∀ x, x ≠ [] → ∀ w,
    ∃ sub, (h.call callback .get x none w).1 = .ret 0 sub (G callback x).1 (G callback x).2
  /-- its value can be copied -/
  copied : ∀ p callback, (p, callback) ∈ registered root → ∀ x, x ≠ [] →
    asn1TagValid (G callback x).2 = true → asn1TagCopied (G callback x).2 = true
  /-- GETNEXT returns the least greater instance with the value of GET -/
  next : Enumerates h root I fun callback x val tag => G callback x = (val, tag)

/-- What GET of an OID gives in a tree: a tag, with a value when it is a valid one. -/
def treeGet (root : MibNode) (G : Int → Oid → LuaVal × UInt8) (o : Oid) :
    UInt8 × Option LuaVal :=
  match mibTreeWalk o root with
  | (.group _, _) => (asn1TagNoSuchObj, none)
  | (.inst _, []) => (asn1TagNoSuchInst, none)
  | (.inst callback, x :: rest) =>
    let (val, tag) := G callback (x :: rest)
    (tag, if asn1TagValid tag then some val else none)

/-- Two trees that are the same inside the views: GET gives the same on every covered OID, and
the covered instances are the same. -/
structure SameInside (root₁ root₂ : MibNode) (I₁ I₂ : Int → Set Oid)
    (G₁ G₂ : Int → Oid → LuaVal × UInt8) (views : List Oid) : Prop where
  get : ∀ v ∈ views, ∀ o, v <+: o → treeGet root₁ G₁ o = treeGet root₂ G₂ o
  instances : ∀ v ∈ views, ∀ o, v <+: o → (o ∈ Instances root₁ I₁ ↔ o ∈ Instances root₂ I₂)

section Tree

variable {ag : Agent σ} {I : Int → Set Oid} {G : Int → Oid → LuaVal × UInt8} {d : ℕ}

theorem Serves.instanceSearch_get (hs : Serves ag.handlers ag.root I G) {p : Oid} (path : Oid)
    (ret : OidSearchRes) (hreg : (p, ret.callback) ∈ registered ag.root)
    (hget : ret.request = .get) (hne : ret.instId ≠ []) :
    Yields (mibInstanceSearch ag.handlers path ret) fun r =>
      r.oid = ret.oid ∧ r.errStat = 0 ∧ r.request = .get ∧
        r.var.Shows ((G ret.callback ret.instId).2,
          if asn1TagValid (G ret.callback ret.instId).2 then some (G ret.callback ret.instId).1
          else none) := by
  intro w
  obtain ⟨sub, hreply⟩ := hs.get p ret.callback hreg ret.instId hne w.state
  have harg : (if ret.request = .set then some (luaPush ret.var) else none) = none := by
    rw [hget]
    rfl
  rw [mibInstanceSearch_apply, harg, hget, hreply]
  by_cases hvalid : asn1TagValid (G ret.callback ret.instId).2 = true
  · have hcopied := hs.copied p ret.callback hreg ret.instId hne hvalid
    simp only [takeReply, hvalid, and_self, if_true, hget, reduceCtorEq, if_false, hcopied]
    exact ⟨_, _, rfl, rfl, rfl, rfl, rfl, rfl, rfl, _, rfl⟩
  · rw [takeReply, if_neg fun h => hvalid h.2, if_neg hvalid]
    exact ⟨_, _, rfl, rfl, rfl, hget, rfl, Bool.eq_false_iff.mpr hvalid⟩

/-- **GET in one view** shows what GET gives in the tree, or nothing outside the view. -/
theorem Serves.searchExact_yields (hwf : ag.root.Wf d) (hs : Serves ag.handlers ag.root I G)
    (oid view : Oid) (ret : OidSearchRes) (hget : ret.request = .get) :
    Yields (searchExact ag oid view ret) fun r =>
      r.oid = oid ∧ r.errStat = 0 ∧ r.request = .get ∧
        r.var.Shows (if view <+: oid then treeGet ag.root G oid else (asn1TagNoSuchObj, none)) := by
  intro w
  rw [searchExact, mibTreeSearch]
  by_cases hcov : view <+: oid
  · have hpos : ¬oidCover view oid ≤ 0 := not_le.mpr ((oidCover_pos_iff view oid).mpr hcov)
    simp only [hpos, if_false, hcov, if_true]
    rcases hwalk : mibTreeWalk oid ag.root with ⟨⟨subs⟩ | callback, rest⟩
    · simp only [treeGet, hwalk]
      exact ⟨_, w, rfl, rfl, rfl, hget, rfl, rfl⟩
    · cases rest with
      | nil =>
        simp only [treeGet, hwalk]
        exact ⟨_, w, rfl, rfl, rfl, hget, rfl, rfl⟩
      | cons x rest =>
        obtain ⟨p, -, hreg⟩ := mibTreeWalk_inst hwf hwalk
        simp only [treeGet, hwalk]
        obtain ⟨r, w', hrun, hr⟩ := hs.instanceSearch_get
          (oid.take (oid.length - (x :: rest).length))
          { ret with oid := oid, errStat := 0, instId := x :: rest, callback := callback }
          hreg hget (cons_ne_nil x rest) w
        refine ⟨r, w', ?_, hr⟩
        rw [bind_assoc, bind_eq_of_some hrun]
        rfl
  · have hneg : oidCover view oid ≤ 0 :=
      not_lt.mp fun h => hcov ((oidCover_pos_iff view oid).mp h)
    simp only [hneg, if_true, hcov, if_false]
    exact ⟨_, w, rfl, rfl, rfl, hget, rfl, rfl⟩

theorem Serves.viewProbe_yields (hwf : ag.root.Wf d) (hs : Serves ag.handlers ag.root I G)
    (view : Oid) (ret : OidSearchRes) (w : World Event σ) :
    ∃ r w', viewProbe ag.handlers ag.root view ret w = (some r, w') := by
  obtain ⟨r, w', hrun, -⟩ := hs.searchExact_yields hwf view view { ret with request := .get } rfl w
  obtain ⟨⟨node, r'⟩, w₁, htree, hpure⟩ := bind_eq_some_iff.mp hrun
  refine ⟨{ r' with request := .getnext, errStat := 0 }, w₁, ?_⟩
  rw [viewProbe, bind_eq_of_some htree]
  rfl

theorem Serves.treeGet_eq [Nonempty σ] (hwf : ag.root.Wf d) (hs : Serves ag.handlers ag.root I G)
    {o : Oid} {val : LuaVal} {tag : UInt8} (ho : o ∈ Instances ag.root I)
    (hcopied : asn1TagCopied tag = true)
    (hans : treeAns ag.root (fun callback x val tag => G callback x = (val, tag)) o val tag) :
    treeGet ag.root G o = (tag, some val) := by
  obtain ⟨p, callback, x, hreg, rfl, hG⟩ := hans
  obtain ⟨q, callback', y, hreg', hy, heq⟩ := ho
  obtain ⟨rfl, rfl, rfl⟩ := registered_split hwf hreg hreg' heq
  have hwalk := mibTreeWalk_registered hwf hreg x
  cases x with
  | nil => exact absurd hy (hs.next.suffix p callback hreg)
  | cons x rest => simp only [treeGet, hwalk, hG, asn1TagValid_of_copied hcopied, if_true]

/-- **GETNEXT in one view** returns the least instance with what GET gives for it. -/
theorem Serves.searchNext_yields (hwf : ag.root.Wf d) (hs : Serves ag.handlers ag.root I G)
    (orig view : Oid) {ret : OidSearchRes} (hnext : ret.request = .getnext) :
    Yields (searchNext ag orig view ret) fun r => r.errStat = 0 ∧ r.request = .getnext ∧
      ((IsLeast (nextSet ag.root I view orig) r.oid ∧ r.var.Shows (treeGet ag.root G r.oid)) ∨
        (nextSet ag.root I view orig = ∅ ∧ r.oid = orig ∧
          r.var.Shows (asn1TagEndOfMibView, none))) := by
  intro w
  have : Nonempty σ := ⟨w.state⟩
  obtain ⟨r, w', hrun, hreq, herr, hout⟩ := mibTreeSearchNext_spec hwf hs.next view orig
    ret hnext w fun _ => hs.viewProbe_yields hwf view ret w
  refine ⟨r, w', hrun, herr, hreq, ?_⟩
  rcases hout with ⟨val, tag, hleast, hans, hcopied, hholds⟩ | ⟨hempty, hoid, htag⟩
  · refine .inl ⟨hleast, ?_⟩
    rw [hs.treeGet_eq hwf hleast.1.1 hcopied hans]
    exact ⟨hholds.1, hholds⟩
  · exact .inr ⟨hempty, hoid, htag, rfl⟩

end Tree

/-! ### Two searches -/

/-- Results that are answered alike, of searches for the same kind of request. -/
def Answered (request : Request) (a b : OidSearchRes) : Prop :=
  (a.request = request ∧ b.request = request) ∧ Alike a b

section TwoTrees

variable {ag₁ : Agent σ} {ag₂ : Agent τ} {I₁ I₂ : Int → Set Oid}
  {G₁ G₂ : Int → Oid → LuaVal × UInt8} {d₁ d₂ : ℕ} {views : List Oid} {view : Oid}

theorem searchExact_alike (hwf₁ : ag₁.root.Wf d₁) (hwf₂ : ag₂.root.Wf d₂)
    (hs₁ : Serves ag₁.handlers ag₁.root I₁ G₁) (hs₂ : Serves ag₂.handlers ag₂.root I₂ G₂)
    (hsame : SameInside ag₁.root ag₂.root I₁ I₂ G₁ G₂ views) (hv : view ∈ views) (oid : Oid)
    (ha : a.request = .get) (hb : b.request = .get) :
    Agree (Answered .get) (searchExact ag₁ oid view a) (searchExact ag₂ oid view b) := by
  refine Agree.of_yields (hs₁.searchExact_yields hwf₁ oid view a ha)
    (hs₂.searchExact_yields hwf₂ oid view b hb) ?_
  rintro r r' ⟨hoid, herr, hreq, hshows⟩ ⟨hoid', herr', hreq', hshows'⟩
  refine ⟨⟨hreq, hreq'⟩, alike_of_shows (hoid.trans hoid'.symm) (herr.trans herr'.symm) hshows ?_⟩
  by_cases hcov : view <+: oid
  · rw [if_pos hcov] at hshows' ⊢
    rw [hsame.get view hv oid hcov]
    exact hshows'
  · rw [if_neg hcov] at hshows' ⊢
    exact hshows'

/-- GETNEXT looks among the same instances in both trees. -/
theorem SameInside.nextSet_eq {root₁ root₂ : MibNode}
    (hsame : SameInside root₁ root₂ I₁ I₂ G₁ G₂ views) (hv : view ∈ views) (orig : Oid) :
    nextSet root₁ I₁ view orig = nextSet root₂ I₂ view orig := by
  ext o
  constructor
  · rintro ⟨hin, hcov, hrest⟩
    exact ⟨(hsame.instances view hv o hcov).mp hin, hcov, hrest⟩
  · rintro ⟨hin, hcov, hrest⟩
    exact ⟨(hsame.instances view hv o hcov).mpr hin, hcov, hrest⟩

theorem searchNext_alike (hwf₁ : ag₁.root.Wf d₁) (hwf₂ : ag₂.root.Wf d₂)
    (hs₁ : Serves ag₁.handlers ag₁.root I₁ G₁) (hs₂ : Serves ag₂.handlers ag₂.root I₂ G₂)
    (hsame : SameInside ag₁.root ag₂.root I₁ I₂ G₁ G₂ views) (hv : view ∈ views) (oid : Oid)
    (ha : a.request = .getnext) (hb : b.request = .getnext) :
    Agree (Answered .getnext) (searchNext ag₁ oid view a) (searchNext ag₂ oid view b) := by
  refine Agree.of_yields (hs₁.searchNext_yields hwf₁ oid view ha)
    (hs₂.searchNext_yields hwf₂ oid view hb) ?_
  rintro r r' ⟨herr, hreq, hout⟩ ⟨herr', hreq', hout'⟩
  rw [← hsame.nextSet_eq hv oid] at hout'
  refine ⟨⟨hreq, hreq'⟩, ?_⟩
  rcases hout with ⟨hleast, hshows⟩ | ⟨hempty, hoid, hshows⟩ <;>
    rcases hout' with ⟨hleast', hshows'⟩ | ⟨hempty', hoid', hshows'⟩
  · have hoid := hleast.unique hleast'
    rw [← hoid, ← hsame.get view hv r.oid hleast.1.2.1] at hshows'
    exact alike_of_shows hoid (herr.trans herr'.symm) hshows hshows'
  · rw [hempty'] at hleast
    exact absurd hleast.1 (Set.notMem_empty _)
  · rw [hempty] at hleast'
    exact absurd hleast'.1 (Set.notMem_empty _)
  · exact alike_of_shows (hoid.trans hoid'.symm) (herr.trans herr'.symm) hshows hshows'

end TwoTrees

/-! ### Two loops over the views -/

theorem mem_of_nextView {views : List Oid} {view : Option Oid} {v : Oid}
    (h : nextView views view = some v) : v ∈ views := by
  cases view with
  | none =>
    rw [nextView_none] at h
    exact mem_of_mem_head? h
  | some u =>
    induction views with
    | nil => cases h
    | cons c views ih =>
      rw [nextView] at h
      split at h
      · exact mem_cons_of_mem c (mem_of_mem_head? h)
      · exact mem_cons_of_mem c (ih h)

/-- **The loop over the views** ends alike, when there is a view to search or the results are
alike already. -/
theorem viewLoop_alike {search₁ : Oid → OidSearchRes → AgentM σ OidSearchRes}
    {search₂ : Oid → OidSearchRes → AgentM τ OidSearchRes} {found : Oid → OidSearchRes → Bool}
    {views : List Oid} {request : Request} (hfound : ∀ v a b, Alike a b → found v a = found v b)
    (hsearch : ∀ v ∈ views, ∀ a b, a.request = request → b.request = request →
      Agree (Answered request) (search₁ v a) (search₂ v b)) (oid : Oid) (fuel : ℕ)
    {view : Option Oid} (ha : a.request = request) (hb : b.request = request)
    (hab : nextView views view = none → Alike a b) :
    Agree (Answered request) (viewLoop search₁ found views oid fuel view a)
      (viewLoop search₂ found views oid fuel view b) := by
  induction fuel generalizing view a b with
  | zero => exact Agree.abort
  | succ fuel ih =>
    simp only [viewLoop]
    rcases hnext : nextView views view with _ | v
    · obtain ⟨-, herr, htag, hsize, hvalue⟩ := hab hnext
      exact Agree.pure ⟨⟨ha, hb⟩, ⟨rfl, herr, htag, hsize, hvalue⟩⟩
    · refine (hsearch v (mem_of_nextView hnext) a b ha hb).bind ?_
      rintro r r' ⟨⟨hr, hr'⟩, halike⟩
      rw [hfound v r r' halike]
      split
      · exact Agree.pure ⟨⟨hr, hr'⟩, halike⟩
      · exact ih hr hr' fun _ => halike

/-! ### Two runs over the varbinds -/

/-- Two searches for a varbind of a principal in step: from results in the relation `K` they
come to results in `K` that are answered alike. -/
structure InStep (K : OidSearchRes → OidSearchRes → Prop) (sdg₀ : SnmpDatagram)
    (find₁ : SnmpDatagram → Oid → OidSearchRes → AgentM σ OidSearchRes)
    (find₂ : SnmpDatagram → Oid → OidSearchRes → AgentM τ OidSearchRes) : Prop where
  load : ∀ vb dec a b, K a b → K (a.load vb dec) (b.load vb dec)
  find : ∀ sdg : SnmpDatagram, sdg.sender = sdg₀.sender → ∀ oid a b, K a b →
    Agree (fun a b => K a b ∧ Alike a b) (find₁ sdg oid a) (find₂ sdg oid b)

theorem answer_alike (hoid : a.oid = b.oid) (herr : a.errStat = b.errStat) (sdg : SnmpDatagram)
    (vbInCnt : UInt32) (type : UInt8) (value : List UInt8) (room : ℕ) :
    Agree (fun s t => s = t ∧ s.sender = sdg.sender)
      (answer sdg vbInCnt type value room a : AgentM σ SnmpDatagram)
      (answer sdg vbInCnt type value room b : AgentM τ SnmpDatagram) := by
  have hemit : ∀ e e' : Event, Agree (fun _ _ => True) (emit e : AgentM σ Unit)
    (emit e' : AgentM τ Unit) := fun _ _ _ _ => .some trivial
  simp only [answer, addVarBind, hoid, herr]
  rcases berOidEncTry b.oid with _ | n
  · exact Agree.abort
  · exact (hemit _ _).bind fun _ _ _ => Agree.pure ⟨rfl, rfl⟩

/-- Results that are alike are answered with the same varbind. -/
theorem answerRead_alike (h : Alike a b) (sdg : SnmpDatagram) (vbInCnt : UInt32) :
    Agree (fun s t => s = t ∧ s.sender = sdg.sender)
      (answerRead sdg vbInCnt a : AgentM σ SnmpDatagram)
      (answerRead sdg vbInCnt b : AgentM τ SnmpDatagram) := by
  rw [answerRead, answerRead, h.size, h.value, h.tag]
  rcases berValueEncTry b.var.value b.var.len.toNat b.var.tag with _ | n
  · exact Agree.abort
  · exact answer_alike h.oid h.errStat sdg vbInCnt _ _ _

section Runs

variable {K : OidSearchRes → OidSearchRes → Prop} {sdg₀ : SnmpDatagram}

section Searches

variable {find₁ : SnmpDatagram → Oid → OidSearchRes → AgentM σ OidSearchRes}
  {find₂ : SnmpDatagram → Oid → OidSearchRes → AgentM τ OidSearchRes}

/-- Both runs decode the value of a varbind, or neither does. -/
theorem InStep.loadValue (h : InStep K sdg₀ find₁ find₂) (vb : VarBind) (hab : K a b) :
    Agree K (loadValue vb a : AgentM σ OidSearchRes)
      (loadValue vb b : AgentM τ OidSearchRes) := by
  rw [SmithSnmp.loadValue, SmithSnmp.loadValue]
  rcases berValueDec vb.value vb.valueType with _ | dec
  · exact Agree.abort
  · exact Agree.pure (h.load vb dec a b hab)

/-- **Run lemma for GET and GETNEXT**: the same datagram results. -/
theorem InStep.readLoop (h : InStep K sdg₀ find₁ find₂) (vbs : List VarBind) (vbInCnt : UInt32)
    (hsdg : sdg.sender = sdg₀.sender) (hab : K a b) :
    Agree (· = ·) (readLoop find₁ vbs vbInCnt sdg a) (readLoop find₂ vbs vbInCnt sdg b) := by
  induction vbs generalizing vbInCnt sdg a b with
  | nil => exact Agree.pure rfl
  | cons vb vbs ih =>
    refine (h.loadValue vb hab).bind fun a' b' hab' => ?_
    refine (h.find sdg hsdg vb.oid _ _ hab').bind ?_
    rintro r r' ⟨hK, halike⟩
    refine (answerRead_alike halike sdg (vbInCnt + 1)).bind ?_
    rintro s _ ⟨rfl, hs⟩
    exact ih (vbInCnt + 1) (hs.trans hsdg) hK

end Searches

/-- Two states of GETBULK that differ in their search results only. -/
structure SameBulk (K : OidSearchRes → OidSearchRes → Prop) (sdg₀ : SnmpDatagram)
    (st st' : BulkState) : Prop where
  vbs : st.vbs = st'.vbs
  vbInCnt : st.vbInCnt = st'.vbInCnt
  sdg : st.sdg = st'.sdg
  sender : st.sdg.sender = sdg₀.sender
  ret : K st.ret st'.ret

variable {ag₁ : Agent σ} {ag₂ : Agent τ}

/-- The row of a GETBULK request. -/
theorem InStep.bulkgetRow (h : InStep K sdg₀ (mibGetnext ag₁) (mibGetnext ag₂))
    (done vbs : List VarBind) {st st' : BulkState} (hst : SameBulk K sdg₀ st st') :
    Agree (SameBulk K sdg₀) (snmpBulkgetRow ag₁ done vbs st)
      (snmpBulkgetRow ag₂ done vbs st') := by
  induction vbs generalizing done st st' with
  | nil => exact Agree.pure ⟨rfl, hst.vbInCnt, hst.sdg, hst.sender, hst.ret⟩
  | cons vb vbs ih =>
    rw [snmpBulkgetRow, snmpBulkgetRow, ← hst.sdg, ← hst.vbInCnt]
    refine (h.loadValue vb hst.ret).bind fun a' b' hab => ?_
    refine (h.find st.sdg hst.sender vb.oid _ _ hab).bind ?_
    rintro r r' ⟨hK, halike⟩
    refine (answerRead_alike halike st.sdg (st.vbInCnt + 1)).bind ?_
    rintro s _ ⟨rfl, hs⟩
    rw [halike.oid]
    exact ih _ ⟨hst.vbs, rfl, rfl, hs.trans hst.sender, hK⟩

/-- **Run lemma for GETBULK**: the rows one after the other. -/
theorem InStep.bulkgetLoop (h : InStep K sdg₀ (mibGetnext ag₁) (mibGetnext ag₂)) (repeats : ℕ)
    {st st' : BulkState} (hst : SameBulk K sdg₀ st st') :
    Agree (SameBulk K sdg₀) (snmpBulkgetLoop ag₁ repeats st)
      (snmpBulkgetLoop ag₂ repeats st') := by
  induction repeats generalizing st st' with
  | zero => exact Agree.pure hst
  | succ repeats ih =>
    rw [snmpBulkgetLoop, snmpBulkgetLoop, hst.vbs]
    exact (h.bulkgetRow [] st'.vbs hst).bind fun _ _ hst' => ih hst'

/-- Two agents whose searches are in step answer every read with the same datagram. -/
theorem InStep.dispatch {Kget Knext : OidSearchRes → OidSearchRes → Prop}
    (hget : InStep Kget sdg (mibGet ag₁) (mibGet ag₂))
    (hnext : InStep Knext sdg (mibGetnext ag₁) (mibGetnext ag₂))
    (hinit : Kget { request := .get } { request := .get })
    (hinit' : Knext { request := .getnext } { request := .getnext })
    (htype : sdg.pduHdr.pduType ≠ snmpReqSet) :
    Agree (· = ·) (snmpRequestDispatch ag₁ sdg) (snmpRequestDispatch ag₂ sdg) := by
  have hsome : ∀ s t : SnmpDatagram, s = t → some s = some t := fun _ _ h => congrArg some h
  have hsender : (markResponse sdg).sender = sdg.sender := rfl
  simp only [snmpRequestDispatch, htype, if_false]
  split
  · exact (hget.readLoop _ 0 hsender hinit).map hsome
  · split
    · exact (hnext.readLoop _ 0 hsender hinit').map hsome
    · split
      · refine Agree.map (Agree.bind (hnext.bulkgetLoop _ ⟨rfl, rfl, rfl, hsender, hinit'⟩) ?_) hsome
        rintro st st' hst
        rw [hst.sdg, hst.vbs]
        exact Agree.pure rfl
      · exact Agree.pure rfl

end Runs

/-! ### Two agents -/

section Agents

variable {ag₁ : Agent σ} {ag₂ : Agent τ} {I₁ I₂ : Int → Set Oid}
  {G₁ G₂ : Int → Oid → LuaVal × UInt8} {d₁ d₂ : ℕ} {sdg₀ : SnmpDatagram}

theorem principalViews_congr (views : ViewState) {sdg' : SnmpDatagram}
    (h : sdg'.sender = sdg.sender) (aces : MibAces) :
    principalViews views sdg' aces = principalViews views sdg aces := by
  simp only [SnmpDatagram.sender, Prod.mk.injEq] at h
  obtain ⟨hver, huser, hname, -, -⟩ := h
  simp only [principalViews, hver, huser, hname]

/-- Access control is the same for agents that give the principal the same views. -/
theorem readAccess_eq (hp : principalViews ag₁.views sdg .read = principalViews ag₂.views sdg .read)
    (ret : OidSearchRes) : readAccess ag₁ sdg ret = readAccess ag₂ sdg ret := by
  rw [readAccess, readAccess, hp]

/-- `mib_get` and `mib_getnext`, with the search and the test of either. -/
def readViews (ag : Agent σ) (search : Oid → Oid → OidSearchRes → AgentM σ OidSearchRes)
    (found : Oid → Oid → OidSearchRes → Bool) (sdg : SnmpDatagram) (oid : Oid)
    (ret : OidSearchRes) : AgentM σ OidSearchRes :=
  viewLoop (search oid) (found oid) (viewsOf ag sdg .read) oid
    ((viewsOf ag sdg .read).length + 1) none (readAccess ag sdg ret).2

theorem mibGet_eq_readViews (ag : Agent σ) :
    mibGet ag = readViews ag (searchExact ag) foundExact := by
  funext sdg oid ret
  rw [readViews, ← readAccess_views ag sdg ret]
  rfl

theorem mibGetnext_eq_readViews (ag : Agent σ) :
    mibGetnext ag = readViews ag (searchNext ag) fun _ => foundNext := by
  funext sdg oid ret
  rw [readViews, ← readAccess_views ag sdg ret]
  rfl

/-- **Two reads in step**, from what holds of the search of one view. -/
theorem readViews_inStep {request : Request}
    {search₁ : Oid → Oid → OidSearchRes → AgentM σ OidSearchRes}
    {search₂ : Oid → Oid → OidSearchRes → AgentM τ OidSearchRes}
    {found : Oid → Oid → OidSearchRes → Bool}
    (hp : principalViews ag₁.views sdg₀ .read = principalViews ag₂.views sdg₀ .read)
    (hfound : ∀ oid v a b, Alike a b → found oid v a = found oid v b)
    (hsearch : ∀ v ∈ viewsOf ag₁ sdg₀ .read, ∀ oid a b, a.request = request →
      b.request = request → Agree (Answered request) (search₁ oid v a) (search₂ oid v b)) :
    ∃ K : OidSearchRes → OidSearchRes → Prop,
      InStep K sdg₀ (readViews ag₁ search₁ found) (readViews ag₂ search₂ found) ∧
        K { request := request } { request := request } := by
  have hprincipal : ∀ sdg : SnmpDatagram, sdg.sender = sdg₀.sender →
      principalViews ag₁.views sdg .read = principalViews ag₂.views sdg .read := by
    intro sdg hsdg
    rw [principalViews_congr _ hsdg, principalViews_congr _ hsdg, hp]
  have hviews : ∀ sdg : SnmpDatagram, sdg.sender = sdg₀.sender →
      viewsOf ag₂ sdg .read = viewsOf ag₁ sdg₀ .read := by
    intro sdg hsdg
    rw [viewsOf, ← hprincipal sdg hsdg, principalViews_congr _ hsdg, viewsOf]
  by_cases hnil : viewsOf ag₁ sdg₀ .read = []
  · -- without views both runs answer from the request
    refine ⟨(· = ·), ⟨fun vb dec a b hab => by rw [hab], ?_⟩, rfl⟩
    rintro sdg hsdg oid a _ rfl
    rw [readViews, readViews, viewsOf_congr hsdg, hviews sdg hsdg, hnil,
      readAccess_eq (hprincipal sdg hsdg)]
    exact Agree.pure ⟨rfl, .refl _⟩
  · refine ⟨fun a b => a.request = request ∧ b.request = request,
      ⟨fun vb dec a b hab => hab, ?_⟩, rfl, rfl⟩
    rintro sdg hsdg oid a b ⟨ha, hb⟩
    rw [readViews, readViews, viewsOf_congr hsdg, hviews sdg hsdg]
    refine viewLoop_alike (hfound oid) (fun v hv => hsearch v hv oid) oid _
      (by rwa [readAccess_request]) (by rwa [readAccess_request]) fun hnone => ?_
    rw [nextView_none, head?_eq_none_iff] at hnone
    exact absurd hnone hnil

/-- **Reads reveal nothing outside the views.** Two agents with reachable trees and handlers
without errors give a principal the same read views, and their trees are the same inside
these views. Then every GET, GETNEXT and GETBULK request of the principal is answered by both
with the same datagram. -/
theorem snmpRequestDispatch_noninterference (htree₁ : ag₁.root.Reachable)
    (htree₂ : ag₂.root.Reachable) (hs₁ : Serves ag₁.handlers ag₁.root I₁ G₁)
    (hs₂ : Serves ag₂.handlers ag₂.root I₂ G₂) {sdg : SnmpDatagram}
    (hp : principalViews ag₁.views sdg .read = principalViews ag₂.views sdg .read)
    (hsame : SameInside ag₁.root ag₂.root I₁ I₂ G₁ G₂ (viewsOf ag₁ sdg .read))
    (htype : sdg.pduHdr.pduType ≠ snmpReqSet) (w₁ : World Event σ) (w₂ : World Event τ) :
    (snmpRequestDispatch ag₁ sdg w₁).1 = (snmpRequestDispatch ag₂ sdg w₂).1 := by
  have hexact : ∀ oid v a b, Alike a b → foundExact oid v a = foundExact oid v b := by
    intro oid v a b h
    rw [foundExact, foundExact, h.errStat, h.tag]
  have hnext : ∀ (_ : Oid) v a b, Alike a b → foundNext v a = foundNext v b := by
    intro _ v a b h
    rw [foundNext, foundNext, h.tag]
  obtain ⟨Kget, hget, hinit⟩ := readViews_inStep hp hexact fun v hv oid a b ha hb =>
    searchExact_alike htree₁.wf htree₂.wf hs₁ hs₂ hsame hv oid ha hb
  obtain ⟨Knext, hgetnext, hinit'⟩ := readViews_inStep hp hnext fun v hv oid a b ha hb =>
    searchNext_alike htree₁.wf htree₂.wf hs₁ hs₂ hsame hv oid ha hb
  rw [← mibGet_eq_readViews, ← mibGet_eq_readViews] at hget
  rw [← mibGetnext_eq_readViews, ← mibGetnext_eq_readViews] at hgetnext
  exact (hget.dispatch hgetnext hinit hinit' htype).eq w₁ w₂

end Agents

/-! ### A scalar object outside the view -/

/-- What a scalar handler gives for GET. -/
def scalarGet (_ : Int) (x : Oid) : LuaVal × UInt8 :=
  if x = [0] then (.num 7, asn1TagInt) else (.nil, asn1TagNoSuchInst)

theorem scalarHandlers_serves {root : MibNode}
    (hlen : ∀ p callback, (p, callback) ∈ registered root → p.length < asn1OidMaxLen) :
    Serves scalarHandlers root (fun _ => {[0]}) scalarGet where
  get p callback _ x _ w := by
    by_cases hx : x = [0]
    · exact ⟨[0], by simp [scalarHandlers, singleHandlers, scalarGet, hx]⟩
    · exact ⟨[], by simp [scalarHandlers, singleHandlers, scalarGet, hx]⟩
  copied p callback _ x _ hvalid := by
    by_cases hx : x = [0]
    · simp only [scalarGet, hx, if_true]
      decide
    · simp only [scalarGet, hx, if_false] at hvalid
      exact absurd hvalid (by decide)
  next := scalarHandlers_enumerates (fun _ => rfl) hlen

/-- The scalar agent with a second object at `2.5`, outside of the view. -/
def widerAgent : Agent Unit :=
  { scalarAgent with root := (mibNodeReg scalarAgent.root [2, 5] 1).2 }

/-- A GETNEXT request of the community `p` for the end of its view. -/
def nextRequest : SnmpDatagram where
  contextName := [0x70]
  pduHdr := { pduType := snmpReqGetnext }
  vbInList := [{ oid := [1, 3, 0], valueType := asn1TagNul, value := [] }]

theorem registered_widerAgent :
    registered widerAgent.root = [([1, 3], 0), ([2, 5], 1)] := by
  decide

/-- The object outside of the view does not show. -/
theorem nextRequest_same :
    (snmpRequestDispatch scalarAgent nextRequest ⟨(), []⟩).1 =
      (snmpRequestDispatch widerAgent nextRequest ⟨(), []⟩).1 := by
  have hlen₁ : ∀ p callback, (p, callback) ∈ registered scalarAgent.root →
      p.length < asn1OidMaxLen := by
    rw [registered_scalarAgent]
    simp [asn1OidMaxLen]
  have hlen₂ : ∀ p callback, (p, callback) ∈ registered widerAgent.root →
      p.length < asn1OidMaxLen := by
    rw [registered_widerAgent]
    intro p callback hp
    obtain ⟨rfl, -⟩ | ⟨rfl, -⟩ : (p = [1, 3] ∧ callback = 0) ∨ (p = [2, 5] ∧ callback = 1) := by
      simpa using hp
    · decide
    · decide
  have htree : widerAgent.root.Reachable := .reg [2, 5] 1 (.reg [1, 3] 0 .init)
  have hviews : viewsOf scalarAgent nextRequest .read = [[1]] := by decide
  have hsame : SameInside scalarAgent.root widerAgent.root (fun _ => {[0]}) (fun _ => {[0]})
      scalarGet scalarGet [[1]] := by
    refine ⟨?_, ?_⟩
    · rintro v hv o ⟨x, rfl⟩
      obtain rfl : v = [1] := by simpa using hv
      have hwalk : mibTreeWalk ([1] ++ x) scalarAgent.root =
        mibTreeWalk ([1] ++ x) widerAgent.root := rfl
      rw [treeGet, hwalk, treeGet]
    · rintro v hv o ⟨x, rfl⟩
      obtain rfl : v = [1] := by simpa using hv
      rw [Instances, Instances, registered_scalarAgent, registered_widerAgent]
      constructor
      · rintro ⟨p, callback, y, hp, hy, heq⟩
        exact ⟨p, callback, y, mem_append_left [([2, 5], 1)] hp, hy, heq⟩
      · rintro ⟨p, callback, y, hp, hy, heq⟩
        rcases mem_cons.mp hp with hp | hp
        · exact ⟨p, callback, y, mem_singleton.mpr hp, hy, heq⟩
        · obtain ⟨rfl, -⟩ := Prod.mk.inj (mem_singleton.mp hp)
          cases heq
  have hp : principalViews scalarAgent.views nextRequest .read =
      principalViews widerAgent.views nextRequest .read := rfl
  rw [← hviews] at hsame
  exact snmpRequestDispatch_noninterference (.reg [1, 3] 0 .init) htree
    (scalarHandlers_serves hlen₁) (scalarHandlers_serves hlen₂) hp hsame (by decide)
    ⟨(), []⟩ ⟨(), []⟩

end SmithSnmp
