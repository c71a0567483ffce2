import SmithSnmp.AgentxRange
import SmithSnmp.AllOrNothing
import SmithSnmp.BerMeaning

/-!
# What SET Echoes

A varbind of a SET is answered with its own type and with the value that is left in the variable.
The handler of a Lua group keeps the type or gives it up, and it never touches the value. But both
`snmp_set` and `agentx_set` encode the value with the size that was reserved for it as the number of
its elements. For an object identifier these are different numbers: more or less of it is written
than there is room for.

Over BER the two numbers can agree by chance, a number of more than 32 bits is cut, and a negative
one of more than four octets is never decoded; over AgentX only the null identifier is echoed.

## Main results

* `mibSet_answers`, `xMibSet_answers`: what SET leaves of the variable.
* `set_echoes_iff`: the varbinds that are echoed.
-/

namespace SmithSnmp

open List Lib MibNode Option Traced

variable {σ : Type}

variable {var : Variable} {r ret : OidSearchRes} {type : UInt8} {oid : Oid} {content : List UInt8}
  {vb : VarBind}

/-! ### The variable -/

/-- The variable still holds the value of the request. -/
structure Kept (var : Variable) (r : OidSearchRes) : Prop where
  request : r.request = .set
  len : r.var.len = var.len
  value : r.var.value = var.value
  tag : r.var.tag = var.tag ∨ asn1TagValid r.var.tag = false

/-- It does so behind a search, and a type that is successful has passed the check. -/
structure SetAnswered (var : Variable) (r : OidSearchRes) : Prop extends Kept var r where
  checked : isFound (r.var.tag, r.errStat) = true → checkedTag var.tag = true

theorem Kept.answered_of_invalid (h : Kept var r) (hinvalid : asn1TagValid r.var.tag = false) :
    SetAnswered var r := by
  refine ⟨h, fun hfound => ?_⟩
  simp [isFound, hinvalid] at hfound

/-- The handler of a Lua group gives the type back, or none. -/
theorem luaSet_outcome (g : LuaGroup σ) (s : List ℕ) {val : LuaVal} {tag : UInt8}
    (hcheck : returnValueCheck val tag = checkedTag tag) (st : σ) :
    replyOutcome (luaSet g s val tag st).1 = (asn1TagNoSuchObj, 0) ∨
      ∃ errStat, replyOutcome (luaSet g s val tag st).1 = (tag, errStat) ∧
        (errStat = 0 → checkedTag tag = true) := by
  rw [luaSet]
  cases mibGroupIndexesGenerate g.objs with
  | none => exact .inl rfl
  | some tab =>
    dsimp only
    cases htarget : setTarget g.objs tab s tag with
    | error errStat =>
      exact .inr ⟨errStat, rfl, fun hzero => absurd hzero (setTarget_error_ne_zero htarget)⟩
    | ok t =>
      dsimp only
      split
      · exact .inl rfl
      · rcases g.setF t.path t.inst val st with ⟨_ | errStat, st'⟩
        · exact .inl rfl
        · dsimp only
          split
          · next hval => exact .inr ⟨_, rfl, fun _ => hcheck ▸ hval⟩
          · exact .inl rfl

/-- A call of the handler keeps the value. -/
theorem mibInstanceSearch_answers (groups : Int → LuaGroup σ) (path : Oid) (h : Kept var ret) :
    Ensures (mibInstanceSearch (luaHandlers groups) path ret) (SetAnswered var) := by
  intro w r w' hrun
  have hcall : (luaHandlers groups).call ret.callback .set ret.instId (some (luaPush ret.var))
      w.state = luaSet (groups ret.callback) (ret.instId.map UInt32.toNat) (luaPush ret.var).1
        ret.var.tag w.state := rfl
  rw [mibInstanceSearch_apply, takeReply_set h.request, h.request, if_pos rfl, hcall] at hrun
  obtain rfl := some.inj (congrArg Prod.fst hrun)
  obtain hout | ⟨errStat, hout, hzero⟩ := luaSet_outcome (groups ret.callback)
    (ret.instId.map UInt32.toNat) (pushed_luaPush ret.var).checked w.state
  · rw [hout]
    exact Kept.answered_of_invalid ⟨rfl, h.len, h.value, .inr rfl⟩ rfl
  · rw [hout]
    refine ⟨⟨rfl, h.len, h.value, h.tag⟩, fun hfound => ?_⟩
    simp only [isFound, Bool.and_eq_true, decide_eq_true_eq] at hfound
    rcases h.tag with hvar | hinvalid
    · exact hvar ▸ hzero hfound.1
    · rw [hinvalid] at hfound
      exact absurd hfound.2 (by simp)

/-- **The search of SET** keeps the value. -/
theorem mibTreeSearch_answers (groups : Int → LuaGroup σ) (root : MibNode) (view orig : Oid)
    (h : Kept var ret) :
    Ensures (mibTreeSearch (luaHandlers groups) root view orig ret)
      fun p => SetAnswered var p.2 := by
  simp only [mibTreeSearch]
  split
  · exact .pure (Kept.answered_of_invalid ⟨h.request, h.len, h.value, .inr rfl⟩ rfl)
  · split
    · exact .pure (Kept.answered_of_invalid ⟨h.request, h.len, h.value, .inr rfl⟩ rfl)
    · exact .pure (Kept.answered_of_invalid ⟨h.request, h.len, h.value, .inr rfl⟩ rfl)
    · refine (mibInstanceSearch_answers groups _ ?_).bind_of fun r hr => .pure hr
      exact ⟨h.request, h.len, h.value, h.tag⟩

/-- The access control of SET keeps the value, and without a view there is an error. -/
theorem writeAccess_kept (ag : Agent σ) (sdg : SnmpDatagram) (oid : Oid) (hreq : ret.request = .set) :
    Kept ret.var (writeAccess ag sdg oid ret).2 ∧
      ((writeAccess ag sdg oid ret).1 = [] → (writeAccess ag sdg oid ret).2.errStat ≠ 0) := by
  have hdenied : Kept ret.var { ret with errStat := snmpErrStatNoAccess } :=
    ⟨hreq, rfl, rfl, .inl rfl⟩
  have hne : snmpErrStatNoAccess ≠ 0 := by decide
  rw [writeAccess]
  split
  · exact ⟨hdenied, fun _ => hne⟩
  · split
    · next views _ hcover =>
        refine ⟨⟨by simpa using hreq, by simp, by simp, by simp⟩, fun hempty => ?_⟩
        dsimp only at hempty
        rw [hempty] at hcover
        cases hcover
    · exact ⟨hdenied, fun _ => hne⟩

/-- **SET over SNMP** keeps the value. A principal without access gets an error. -/
theorem mibSet_answers (root : MibNode) (vs : ViewState) (groups : Int → LuaGroup σ)
    (sdg : SnmpDatagram) (oid : Oid) (hreq : ret.request = .set) :
    Ensures (mibSet (luaAgent root vs groups) sdg oid ret) (SetAnswered ret.var) := by
  obtain ⟨hkept, hnil⟩ := writeAccess_kept (luaAgent root vs groups) sdg oid hreq
  rw [mibSet]
  generalize writeAccess (luaAgent root vs groups) sdg oid ret = p at hkept hnil
  obtain ⟨views, r⟩ := p
  refine viewLoop_ensures (P := Kept ret.var) (fun view r hr => ?_) (fun r hr => hr.toKept)
    (fun r hr => ⟨⟨hr.request, hr.len, hr.value, hr.tag⟩, hr.checked⟩) hkept (fun hempty => ?_) _
  · refine (mibTreeSearch_answers groups root view oid hr).bind_of fun p hp => .pure hp
  · refine ⟨⟨hkept.request, hkept.len, hkept.value, hkept.tag⟩, fun hfound => ?_⟩
    simp only [isFound, Bool.and_eq_true, decide_eq_true_eq] at hfound
    exact absurd hfound.1 (hnil hempty)

/-- **SET over AgentX** keeps the value. -/
theorem xMibSet_answers (groups : Int → LuaGroup σ) (root : MibNode) (vb : XVarBind)
    (hreq : ret.request = .set) :
    Traced.Ensures (xMibSet (luaHandlers groups) root vb ret) (SetAnswered ret.var) := by
  rw [xMibSet, Traced.map_eq_bind]
  exact (mibTreeSearch_answers groups root agentxDummyView vb.oid
    ⟨hreq, rfl, rfl, .inl rfl⟩).bind_of fun p hp => .pure hp

/-! ### Sizes over BER -/

/-- A value other than an object identifier takes as many octets as its size says. -/
theorem berValueEnc_sized (h : type ≠ asn1TagObjid) (mem : List UInt8) (len : ℕ) :
    ∃ valLen, berValueEncTry mem len type = some valLen ∧
      (berValueEnc mem valLen type).length = valLen := by
  simp only [berValueEncTry, berValueEnc, if_neg h]
  split
  · exact ⟨_, rfl, berIntEnc_length _⟩
  · split
    · exact ⟨_, rfl, berUintEnc_length _⟩
    · split
      · exact ⟨_, rfl, peekBytes_length mem len⟩
      · exact ⟨_, rfl, rfl⟩

/-- An OID in memory, and what comes behind it. -/
theorem peekOid_beyond (oid : Oid) (rest : List UInt8) (m : ℕ) :
    peekOid (oid.flatMap leBytes ++ rest) (oid.length + m) = oid ++ peekOid rest m := by
  induction oid with
  | nil => simp
  | cons subId oid ih =>
    rw [flatMap_cons, append_assoc, length_cons, Nat.add_right_comm, peekOid,
      peekWord_leBytes_append, cons_append]
    exact congrArg _ ih

/-- The first sub-identifiers of an OID in memory. -/
theorem peekOid_within {n : ℕ} (h : n ≤ oid.length) (rest : List UInt8) :
    peekOid (oid.flatMap leBytes ++ rest) n = oid.take n := by
  have hsplit : oid.flatMap leBytes =
      (oid.take n).flatMap leBytes ++ (oid.drop n).flatMap leBytes := by
    rw [← flatMap_append, take_append_drop]
  have hlen : (oid.take n).length = n := by rw [length_take, Nat.min_eq_left h]
  have hread := peekOid_flatMap_leBytes (oid.take n) ((oid.drop n).flatMap leBytes ++ rest)
  rwa [hlen, ← append_assoc, ← hsplit] at hread

/-- Every sub-identifier behind the first two takes an octet at least. -/
theorem berOidEnc_append_length (h : 2 ≤ oid.length) (tail : Oid) :
    (berOidEnc oid).length + tail.length ≤ (berOidEnc (oid ++ tail)).length := by
  match oid with
  | x :: y :: rest =>
    have htail : tail.length ≤ (tail.flatMap subIdEnc).length := by
      induction tail with
      | nil => simp
      | cons id tail ih =>
        have hpos : 0 < (subIdDigits 5 id).length := subIdDigits_length_pos 4 id
        rw [flatMap_cons, length_append, length_cons, subIdEnc_length]
        omega
    simp only [cons_append, berOidEnc, flatMap_append, length_cons,
      length_append]
    omega

/-- **An OID encoded with its size as the number of its sub-identifiers.** The sizes agree only if
no more sub-identifiers are encoded than there are. -/
theorem berOidEnc_sized_iff (h : 2 ≤ oid.length) (rest : List UInt8) {valLen : ℕ}
    (htry : berOidEncTry oid = some valLen) :
    (berOidEnc (peekOid (oid.flatMap leBytes ++ rest) valLen)).length = valLen ↔
      valLen ≤ oid.length ∧ (berOidEnc (oid.take valLen)).length = valLen := by
  by_cases hle : valLen ≤ oid.length
  · rw [peekOid_within hle, and_iff_right hle]
  · have hsize := berOidEncTry_eq htry
    obtain ⟨m, rfl⟩ := Nat.exists_eq_add_of_le (Nat.le_of_not_le hle)
    have hlong := berOidEnc_append_length h (peekOid rest m)
    rw [length_peekOid] at hlong
    have hmod := Nat.mod_le (berOidEnc oid).length 256
    rw [peekOid_beyond]
    refine iff_of_false ?_ fun hboth => hle hboth.1
    omega

/-! ### Values over BER -/

/-- The variable holds the value that was decoded from a content of a type. -/
structure Loaded (type : UInt8) (content : List UInt8) (r : OidSearchRes) : Prop where
  tag : r.var.tag = type
  value : ∃ dec mem, berValueDec content type = some dec ∧ r.var.len = UInt16.ofNat dec.1 ∧
    r.var.value = pokeBytes mem dec.2

/-- What `snmp_set` writes for a varbind has the size that was reserved for it, and if the SET was
successful also the value of the request. -/
def Echoed (type : UInt8) (content : List UInt8) (r : OidSearchRes) : Prop :=
  ∃ valLen, berValueEncTry r.var.value r.var.len.toNat r.var.tag = some valLen ∧
    (berValueEnc r.var.value valLen r.var.tag).length = valLen ∧
    (isFound (r.var.tag, r.errStat) = true →
      SameMeaning type content (berValueEnc r.var.value valLen r.var.tag))

/-- The object identifiers that are echoed: their size, taken as the number of sub-identifiers,
gives a value of this size. Either these are all of them, and the codec keeps them, or the
identifier is `0.0`. -/
def OidEchoable (content : List UInt8) : Prop :=
  ∃ valLen, berOidEncTry (berOidDec content) = some valLen ∧
    valLen ≤ (berOidDec content).length ∧
    (berOidEnc ((berOidDec content).take valLen)).length = valLen ∧
    ∀ v, berObjid content = some v →
      (valLen = (berOidDec content).length ∧ berObjid (berOidEnc (berOidDec content)) = some v) ∨
        content = [0]

/-- The values that are echoed: numbers that fit into 32 bits, and some object identifiers. Where
`ber_int_dec` does not return, nothing is answered. -/
def Echoable (type : UInt8) (content : List UInt8) : Prop :=
  if type = asn1TagInt ∨ type = asn1TagCnt then
    RunsAway content ∨ ∀ v, berInteger content = some v → -2 ^ 31 ≤ v ∧ v < 2 ^ 31
  else if type = asn1TagGau ∨ type = asn1TagTimeticks then
    ∀ v, berInteger content = some v → 0 ≤ v ∧ v < 2 ^ 32
  else if type = asn1TagObjid then content ≠ [] → OidEchoable content
  else True

theorem two_le_berOidDec_length (h : content ≠ []) : 2 ≤ (berOidDec content).length := by
  cases content with
  | nil => exact absurd rfl h
  | cons b bs =>
    rw [berOidDec_cons_length]
    omega

/-- Nothing is asked of a type that does not pass the check. -/
theorem echoable_of_unchecked (h : ¬ checkedTag type = true) : Echoable type content := by
  simp only [checkedTag, Bool.or_eq_true, decide_eq_true_eq] at h
  rw [Echoable, if_neg (by tauto), if_neg (by tauto), if_neg (by tauto)]
  trivial

section Loaded

variable {type : UInt8} {content : List UInt8} {r : OidSearchRes}

theorem Loaded.written_int (h : Loaded type content r)
    (htype : type = asn1TagInt ∨ type = asn1TagCnt) (hne : content ≠ []) :
    ∃ x, berIntDec content = some x ∧
      ∀ valLen, berValueEnc r.var.value valLen type = berIntEnc x := by
  obtain ⟨dec, mem, hdec, -, hvalue⟩ := h.value
  rw [berValueDec, if_neg (by simpa using hne), if_pos htype] at hdec
  obtain ⟨x, hx, rfl⟩ := map_eq_some_iff.mp hdec
  refine ⟨x, hx, fun valLen => ?_⟩
  rw [berValueEnc, if_pos htype, hvalue, pokeBytes, peekWord_leBytes_append]
  simp

theorem Loaded.written_uint (h : Loaded type content r)
    (htype : type = asn1TagGau ∨ type = asn1TagTimeticks) (hne : content ≠ []) (valLen : ℕ) :
    berValueEnc r.var.value valLen type = berUintEnc (berUintDec content) := by
  obtain ⟨dec, mem, hdec, -, hvalue⟩ := h.value
  have hint : ¬ (type = asn1TagInt ∨ type = asn1TagCnt) := by
    rcases htype with rfl | rfl <;> decide
  rw [berValueDec, if_neg (by simpa using hne), if_neg hint, if_pos htype] at hdec
  rw [berValueEnc, if_neg hint, if_pos htype, hvalue, ← some.inj hdec, pokeBytes,
    peekWord_leBytes_append]

theorem Loaded.written_octets (h : Loaded asn1TagOctstr content r)
    (hcontent : content.length ≤ asn1ValueMaxLen) :
    berValueEncTry r.var.value r.var.len.toNat asn1TagOctstr = some content.length ∧
      berValueEnc r.var.value content.length asn1TagOctstr = content := by
  obtain ⟨dec, mem, hdec, hsize, hvalue⟩ := h.value
  obtain rfl : dec = (content.length, content) := by
    cases content <;> exact (some.inj hdec).symm
  have hlen : r.var.len.toNat = content.length := by
    rw [hsize, UInt16.toNat_ofNat_of_lt']
    exact hcontent.trans_lt (by decide)
  refine ⟨by rw [hlen]; rfl, ?_⟩
  change peekBytes r.var.value content.length = content
  rw [hvalue, pokeBytes, peekBytes_append (Nat.le_refl _), peekBytes_self]

theorem Loaded.written_objid (h : Loaded asn1TagObjid content r) (hne : content ≠ [])
    (hcontent : content.length ≤ asn1ValueMaxLen) :
    berValueEncTry r.var.value r.var.len.toNat asn1TagObjid = berOidEncTry (berOidDec content) ∧
      ∃ rest, ∀ valLen, berValueEnc r.var.value valLen asn1TagObjid =
        berOidEnc (peekOid ((berOidDec content).flatMap leBytes ++ rest) valLen) := by
  obtain ⟨dec, mem, hdec, hsize, hvalue⟩ := h.value
  rw [berValueDec, if_neg (by simpa using hne)] at hdec
  obtain rfl : ((berOidDec content).length, (berOidDec content).flatMap leBytes) = dec :=
    some.inj hdec
  have hlen : r.var.len.toNat = (berOidDec content).length := by
    rw [hsize, UInt16.toNat_ofNat_of_lt']
    cases content with
    | nil => exact absurd rfl hne
    | cons b bs =>
      have hends : ends bs ≤ bs.length := countP_le_length
      have hmax : asn1ValueMaxLen = 1024 := rfl
      rw [berOidDec_cons_length]
      rw [length_cons] at hcontent
      change _ < 65536
      omega
  refine ⟨?_, _, fun valLen => by rw [hvalue]; rfl⟩
  change berOidEncTry (peekOid r.var.value r.var.len.toNat) = _
  rw [hlen, hvalue, pokeBytes, peekOid_flatMap_leBytes]

/-- No object identifier at all is echoed as such. -/
theorem Loaded.echoed_nil (h : Loaded asn1TagObjid [] r) : Echoed asn1TagObjid [] r := by
  obtain ⟨dec, -, hdec, hlen, -⟩ := h.value
  obtain rfl : (0, []) = dec := some.inj hdec
  rw [Echoed, h.tag, hlen]
  exact ⟨0, rfl, rfl, fun _ v hv => by cases hv⟩

/-- **An object identifier** is echoed as its size says. -/
theorem Loaded.echoed_objid_iff (h : Loaded asn1TagObjid content r)
    (hcontent : content.length ≤ asn1ValueMaxLen) (hok : r.errStat = 0) :
    Echoed asn1TagObjid content r ↔ Echoable asn1TagObjid content := by
  have hcond : Echoable asn1TagObjid content ↔ (content ≠ [] → OidEchoable content) := Iff.rfl
  rw [hcond]
  cases content with
  | nil => exact iff_of_true h.echoed_nil fun hne => absurd rfl hne
  | cons b bs =>
    obtain ⟨htry, rest, hwritten⟩ := h.written_objid (cons_ne_nil b bs) hcontent
    have htwo := two_le_berOidDec_length (cons_ne_nil b bs)
    have hfound : isFound (asn1TagObjid, r.errStat) = true := by
      rw [hok]
      rfl
    rw [imp_iff_right (cons_ne_nil b bs), Echoed, OidEchoable, h.tag, htry]
    refine exists_congr fun valLen => and_congr_right fun hsize => ?_
    rw [hwritten, berOidEnc_sized_iff htwo rest hsize, and_assoc]
    refine and_congr_right fun hle => and_congr_right fun _ => ?_
    rw [peekOid_within hle, imp_iff_right hfound, sameMeaning_objid_iff]
    exact forall₂_congr fun v hv => berObjid_cut_iff hv hsize hle

theorem Loaded.echoed_iff_of_ne_objid (h : Loaded type content r) (hobjid : type ≠ asn1TagObjid)
    (hfound : isFound (type, r.errStat) = true) :
    Echoed type content r ↔
      ∃ valLen, berValueEncTry r.var.value r.var.len.toNat type = some valLen ∧
        SameMeaning type content (berValueEnc r.var.value valLen type) := by
  rw [Echoed, h.tag]
  refine exists_congr fun valLen => and_congr_right fun htry => ?_
  obtain ⟨n, hn, hsize⟩ := berValueEnc_sized hobjid r.var.value r.var.len.toNat
  obtain rfl : n = valLen := some.inj (hn.symm.trans htry)
  rw [and_iff_right hsize, imp_iff_right hfound]

/-- **A number** is echoed if it survives decoding and encoding. -/
theorem Loaded.echoed_number_iff (h : Loaded type content r)
    (htype : type = asn1TagInt ∨ type = asn1TagCnt ∨ type = asn1TagGau ∨ type = asn1TagTimeticks)
    (hok : r.errStat = 0) {P : ℤ → Prop}
    (hwritten : ∀ valLen v, berInteger content = some v →
      (berInteger (berValueEnc r.var.value valLen type) = some v ↔ P v)) :
    Echoed type content r ↔ ∀ v, berInteger content = some v → P v := by
  have hobjid : type ≠ asn1TagObjid := by rcases htype with rfl | rfl | rfl | rfl <;> decide
  have hfound : isFound (type, r.errStat) = true := by
    rw [hok]
    rcases htype with rfl | rfl | rfl | rfl <;> rfl
  simp only [h.echoed_iff_of_ne_objid hobjid hfound, sameMeaning_number_iff htype]
  constructor
  · rintro ⟨valLen, -, hsame⟩ v hv
    exact (hwritten valLen v hv).mp (hsame v hv)
  · intro hP
    obtain ⟨valLen, htry, -⟩ := berValueEnc_sized hobjid r.var.value r.var.len.toNat
    exact ⟨valLen, htry, fun v hv => (hwritten valLen v hv).mpr (hP v hv)⟩

theorem Loaded.echoed_int_iff (h : Loaded type content r)
    (htype : type = asn1TagInt ∨ type = asn1TagCnt) (hok : r.errStat = 0) :
    Echoed type content r ↔ Echoable type content := by
  have hreturns : ¬ RunsAway content := by
    obtain ⟨dec, -, hdec, -⟩ := h.value
    intro haway
    rw [(berValueDec_eq_none_iff content type).mpr ⟨htype, haway⟩] at hdec
    cases hdec
  rw [Echoable, if_pos htype, or_iff_right hreturns]
  refine h.echoed_number_iff (by tauto) hok fun valLen v hv => ?_
  obtain ⟨x, hx, hwritten⟩ := h.written_int htype (ne_nil_of_berInteger hv)
  rw [hwritten]
  exact berInteger_recoded_iff hv hx

theorem Loaded.echoed_uint_iff (h : Loaded type content r)
    (htype : type = asn1TagGau ∨ type = asn1TagTimeticks) (hok : r.errStat = 0) :
    Echoed type content r ↔ Echoable type content := by
  have hint : ¬ (type = asn1TagInt ∨ type = asn1TagCnt) := by
    rcases htype with rfl | rfl <;> decide
  rw [Echoable, if_neg hint, if_pos htype]
  refine h.echoed_number_iff (by tauto) hok fun valLen v hv => ?_
  rw [h.written_uint htype (ne_nil_of_berInteger hv)]
  exact berInteger_recoded_unsigned_iff hv

theorem Loaded.echoed_plain (h : Loaded type content r)
    (htype : type = asn1TagOctstr ∨ type = asn1TagNul)
    (hcontent : content.length ≤ asn1ValueMaxLen) (hok : r.errStat = 0) :
    Echoed type content r := by
  have hobjid : type ≠ asn1TagObjid := by rcases htype with rfl | rfl <;> decide
  have hfound : isFound (type, r.errStat) = true := by
    rw [hok]
    rcases htype with rfl | rfl <;> rfl
  rw [h.echoed_iff_of_ne_objid hobjid hfound]
  rcases htype with rfl | rfl
  · obtain ⟨htry, hwritten⟩ := h.written_octets hcontent
    exact ⟨_, htry, fun v hv => hwritten.symm ▸ hv⟩
  · refine ⟨0, rfl, fun v hv => ?_⟩
    cases content with
    | nil => exact hv
    | cons b bs => cases hv

theorem Loaded.echoed_iff (h : Loaded type content r) (hchecked : checkedTag type = true)
    (hcontent : content.length ≤ asn1ValueMaxLen) (hok : r.errStat = 0) :
    Echoed type content r ↔ Echoable type content := by
  simp only [checkedTag, Bool.or_eq_true, decide_eq_true_eq] at hchecked
  rcases hchecked with ((((((hint | rfl) | rfl) | rfl) | hcnt) | hgau) | htime)
  · exact h.echoed_int_iff (.inl hint) hok
  · exact iff_of_true (h.echoed_plain (.inl rfl) hcontent hok) trivial
  · exact iff_of_true (h.echoed_plain (.inr rfl) hcontent hok) trivial
  · exact h.echoed_objid_iff hcontent hok
  · exact h.echoed_int_iff (.inr hcnt) hok
  · exact h.echoed_uint_iff (.inl hgau) hok
  · exact h.echoed_uint_iff (.inr htime) hok

end Loaded

/-! ### SET over SNMP -/

/-- What SET leaves of a varbind is echoed if its value can be. Without success only the size
counts. -/
theorem SetAnswered.echoed {dec : ℕ × List UInt8}
    (hdec : berValueDec vb.value vb.valueType = some dec) (h : SetAnswered (ret.load vb dec).var r)
    (hcontent : vb.value.length ≤ asn1ValueMaxLen) (hcond : Echoable vb.valueType vb.value) :
    Echoed vb.valueType vb.value r := by
  have hsized (hobjid : r.var.tag ≠ asn1TagObjid)
      (hfound : ¬ isFound (r.var.tag, r.errStat) = true) : Echoed vb.valueType vb.value r := by
    obtain ⟨valLen, htry, hsize⟩ := berValueEnc_sized hobjid r.var.value r.var.len.toNat
    exact ⟨valLen, htry, hsize, fun hyes => absurd hyes hfound⟩
  rcases h.tag with htag | hinvalid
  · have hloaded : ∀ errStat,
        Loaded vb.valueType vb.value { r with errStat := errStat } :=
      fun _ => ⟨htag, dec, ret.var.value, hdec, h.len, h.value⟩
    by_cases hfound : isFound (r.var.tag, r.errStat) = true
    · have hok : r.errStat = 0 := by
        simp only [isFound, Bool.and_eq_true, decide_eq_true_eq] at hfound
        exact hfound.1
      exact ((hloaded r.errStat).echoed_iff (h.checked hfound) hcontent hok).mpr hcond
    · by_cases hobjid : r.var.tag = asn1TagObjid
      · have hcheck : checkedTag vb.valueType = true := by
          rw [← show r.var.tag = vb.valueType from htag, hobjid]
          rfl
        obtain ⟨valLen, htry, hsize, -⟩ :=
          ((hloaded 0).echoed_iff hcheck hcontent rfl).mpr hcond
        exact ⟨valLen, htry, hsize, fun hyes => absurd hyes hfound⟩
      · exact hsized hobjid hfound
  · refine hsized ?_ (by simp [isFound, hinvalid])
    intro hobjid
    rw [hobjid] at hinvalid
    cases hinvalid

/-- The response varbind of `snmp_set` for a varbind, after the search has given `r`: its value has
the size that was reserved, and if the SET is successful the type and the value of the request. -/
def AnswersEchoed (sdg : SnmpDatagram) (vb : VarBind) (vbInCnt : UInt32) (r : OidSearchRes)
    (w : World Event σ) : Prop :=
  ∃ reserved, berValueEncTry r.var.value r.var.len.toNat r.var.tag = some reserved ∧
    ∀ res w', answerSet sdg vb vbInCnt r w = (some res, w') →
      ∃ out, res.1.vbOutList = sdg.vbOutList ++ [out] ∧ out.value.length = reserved ∧
        (res.2.errStat = 0 →
          out.valueType = vb.valueType ∧ SameMeaning vb.valueType vb.value out.value)

/-- An invalid tag becomes an error, so that none is reported only for a value. -/
theorem errStat_eq_zero_iff (r : OidSearchRes) {err : Int32} (herr : err ≠ 0) :
    (if r.errStat = 0 ∧ asn1TagValid r.var.tag = false then err else r.errStat) = 0 ↔
      isFound (r.var.tag, r.errStat) = true := by
  split
  · next h => exact iff_of_false herr (by simp [isFound, h.2])
  · next h => cases hvalid : asn1TagValid r.var.tag <;> simp_all [isFound]

theorem settled_errStat_eq_zero_iff (r : OidSearchRes) :
    r.settled.errStat = 0 ↔ isFound (r.var.tag, r.errStat) = true := by
  rw [OidSearchRes.settled_errStat]
  exact errStat_eq_zero_iff r (by decide)

/-- What is written is what the response varbind holds. -/
theorem answersEchoed_of_echoed {sdg : SnmpDatagram} (h : Echoed vb.valueType vb.value r)
    (vbInCnt : UInt32) (w : World Event σ) : AnswersEchoed sdg vb vbInCnt r w := by
  obtain ⟨valLen, htry, hsize, hsame⟩ := h
  refine ⟨valLen, htry, fun res w' hrun => ?_⟩
  obtain ⟨valLen', htry', hsettled, -, -, out, hout, htype, hvalue, -⟩ := answerSet_eq_some hrun
  obtain rfl : valLen' = valLen := some.inj (htry'.symm.trans htry)
  refine ⟨out, hout, by rw [hvalue, hsize], fun hok => ⟨htype, ?_⟩⟩
  rw [hsettled, settled_errStat_eq_zero_iff] at hok
  rw [hvalue]
  exact hsame hok

theorem echoed_of_answersEchoed {sdg : SnmpDatagram} {vbInCnt : UInt32} {w : World Event σ}
    (h : AnswersEchoed sdg vb vbInCnt r w) (hoid : (berOidEncTry r.oid).isSome) :
    Echoed vb.valueType vb.value r := by
  obtain ⟨reserved, htry, hanswer⟩ := h
  have hsome := (answerSet_isSome_iff sdg vb vbInCnt r w).1.mpr ⟨by rw [htry]; rfl, hoid⟩
  obtain ⟨res, hres⟩ := isSome_iff_exists.mp hsome
  have hrun : answerSet sdg vb vbInCnt r w = (some res, (answerSet sdg vb vbInCnt r w).2) :=
    Prod.ext hres rfl
  obtain ⟨valLen, htry', hsettled, -, -, out, hout, htype, hvalue, -⟩ := answerSet_eq_some hrun
  obtain rfl : valLen = reserved := some.inj (htry'.symm.trans htry)
  obtain ⟨out', hout', hsize, hsame⟩ := hanswer res _ hrun
  obtain rfl : out = out' := by
    rw [hout] at hout'
    simpa using hout'
  refine ⟨valLen, htry, hvalue ▸ hsize, fun hfound => ?_⟩
  rw [← hvalue]
  exact (hsame (by rw [hsettled, settled_errStat_eq_zero_iff]; exact hfound)).2

/-- `snmp_set` echoes the varbinds with a type and a value, for every agent with Lua groups and from
every search result that is carried along. -/
def SnmpSetEchoes (type : UInt8) (content : List UInt8) : Prop :=
  ∀ (σ : Type) (root : MibNode) (vs : ViewState) (groups : Int → LuaGroup σ) (sdg : SnmpDatagram)
    (vb : VarBind) (vbInCnt : UInt32) (ret r : OidSearchRes) (w w' : World Event σ),
    vb.valueType = type → vb.value = content → ret.request = .set →
    (loadValue vb ret >>= mibSet (luaAgent root vs groups) sdg vb.oid) w = (some r, w') →
    AnswersEchoed sdg vb vbInCnt r w'

/-! ### A variable of any type -/

/-- A group with a variable that accepts every value of its type. -/
def acceptingGroup (type : UInt8) : LuaGroup Unit where
  objs := AList.singleton 1 (.scalar (.settable type))
  getF _ _ st := (none, st)
  setF _ _ _ st := (some none, st)

/-- Where this variable is found. -/
def acceptingOid : Oid := [1, 3, 6, 1, 2, 1, 0]

/-- A varbind with the type of the variable comes to it. -/
theorem setRoute_accepting (type : UInt8) {view : Oid}
    (hsplit : splitCover acceptingOid [view] = some ([], [])) :
    setRoute subagentRoot (fun _ => (acceptingGroup type).objs) [view] acceptingOid type =
      .sets 0 ⟨.settable type, [1], []⟩ type [] := by
  have hwalk : mibTreeWalk acceptingOid subagentRoot = (.inst 0, [1, 0]) := rfl
  have hindexes : mibGroupIndexesGenerate (acceptingGroup type).objs =
      some [[[.id 1], [.id 0]]] := rfl
  have htarget : setTarget (acceptingGroup type).objs [[[.id 1], [.id 0]]]
      (([1, 0] : Oid).map UInt32.toNat) type = .ok ⟨.settable type, [1], []⟩ := by
    have hlookup : (acceptingGroup type).objs.lookup 1 = some (.scalar (.settable type)) := rfl
    have hindex : effectiveObjectIndex [[[.id 1], [.id 0]]] 1 = some 2 := rfl
    change setTarget _ _ [1, 0] type = _
    simp [setTarget, hlookup, hindex, LuaVariable.settable]
  simp only [setRoute, hsplit, hwalk, hindexes, if_true, htarget]
  rfl

theorem setOutcome_accepting (hchecked : checkedTag type = true) (vs : ViewState) {view : Oid}
    (hsplit : splitCover acceptingOid [view] = some ([], [])) (htag : var.tag = type) (st : Unit) :
    (setOutcome (luaAgent subagentRoot vs fun _ => acceptingGroup type) [view] acceptingOid var
      st).1 = (type, 0) := by
  have hobjs : ∀ _ : Int, (acceptingGroup type).objs = (acceptingGroup type).objs := fun _ => rfl
  have hroute := setOutcome_luaAgent subagentRoot vs hobjs [view] acceptingOid var st
  rw [htag, setRoute_accepting type hsplit] at hroute
  obtain ⟨val, hval, hout, -⟩ := hroute
  rw [hout]
  exact standing_succeeded hval hchecked ⟨none, rfl, rfl⟩

/-- A varbind for this variable. -/
def acceptedVarBind (type : UInt8) (content : List UInt8) : VarBind where
  oid := acceptingOid
  valueType := type
  value := content

theorem mibSet_accepting (hchecked : checkedTag type = true) {dec : ℕ × List UInt8}
    (hdec : berValueDec content type = some dec) :
    ∃ r w', mibSet (luaAgent subagentRoot oneScalarViews fun _ => acceptingGroup type)
        { contextName := [0x70] } acceptingOid
        (({ request := .set } : OidSearchRes).load (acceptedVarBind type content) dec) ⟨(), []⟩ =
          (some r, w') ∧
      Loaded type content r ∧ r.errStat = 0 ∧ r.oid = acceptingOid := by
  have hviews : viewsOf (luaAgent subagentRoot oneScalarViews fun _ => acceptingGroup type)
      { contextName := [0x70] } .write = [[1]] := by
    change writeViews oneScalarViews { contextName := [0x70] } = [[1]]
    decide +kernel
  have hanti : Antichain (viewsOf (luaAgent subagentRoot oneScalarViews
      fun _ => acceptingGroup type) { contextName := [0x70] } .write) := by
    rw [hviews]
    exact pairwise_singleton _ _
  have hreq : (({ request := .set } : OidSearchRes).load (acceptedVarBind type content)
    dec).request = .set := rfl
  obtain ⟨r, w', hrun, hsettled, -⟩ := mibSet_settles hanti acceptingOid hreq ⟨(), []⟩
  have hkept := mibSet_answers subagentRoot oneScalarViews (fun _ => acceptingGroup type)
    { contextName := [0x70] } acceptingOid hreq _ _ _ hrun
  rw [hviews, setOutcome_accepting hchecked oneScalarViews (by decide) rfl] at hsettled
  exact ⟨r, w', hrun, ⟨hsettled.tag, dec, [], hdec, hkept.len, hkept.value⟩, hsettled.errStat,
    hsettled.oid⟩

/-- **The varbinds that `snmp_set` echoes.** -/
theorem snmpSetEchoes_iff (hcontent : content.length ≤ asn1ValueMaxLen) :
    SnmpSetEchoes type content ↔ Echoable type content := by
  constructor
  · intro h
    by_cases hchecked : checkedTag type = true
    · rcases hdec : berValueDec content type with _ | dec
      · obtain ⟨hint, haway⟩ := (berValueDec_eq_none_iff content type).mp hdec
        rw [Echoable, if_pos hint]
        exact .inl haway
      obtain ⟨r, w', hrun, hloaded, hok, hoid⟩ := mibSet_accepting hchecked hdec
      have hload : (loadValue (acceptedVarBind type content) { request := .set } >>= mibSet
          (luaAgent subagentRoot oneScalarViews fun _ => acceptingGroup type)
            { contextName := [0x70] } acceptingOid) ⟨(), []⟩ = (some r, w') := by
        have hdec' : berValueDec (acceptedVarBind type content).value
            (acceptedVarBind type content).valueType = some dec := hdec
        rw [loadValue_of_dec hdec', pure_bind]
        exact hrun
      have hanswers := h Unit subagentRoot oneScalarViews _ _ (acceptedVarBind type content) 0 _ r
        ⟨(), []⟩ w' rfl rfl rfl hload
      refine (hloaded.echoed_iff hchecked hcontent hok).mp ?_
      exact echoed_of_answersEchoed hanswers (by rw [hoid]; rfl)
    · exact echoable_of_unchecked hchecked
  · intro hcond σ root vs groups sdg vb vbInCnt ret r w w' htype hvalue hreq hrun
    subst htype hvalue
    rcases loadValue_bind vb ret (mibSet (luaAgent root vs groups) sdg vb.oid) with
      ⟨-, heq⟩ | ⟨-, dec, hdec, heq⟩
    · rw [heq] at hrun
      cases hrun
    · rw [heq] at hrun
      have hanswered := mibSet_answers root vs groups sdg vb.oid
        (show (ret.load vb dec).request = .set from hreq) w r w' hrun
      exact answersEchoed_of_echoed (hanswered.echoed hdec hcontent hcond) vbInCnt w'

/-! ### SET over AgentX -/

/-- A value of a varbind as `agentx_value_dec` delivers it. -/
def XReceived (type : UInt16) (len : UInt32) (value : List UInt8) : Prop :=
  ∃ c c', agentxValueDec type.toUInt8 c = .ok ((len, value), c')

/-- The elements of a value take the bytes that are copied, and their number is small. -/
structure XSized (type : UInt8) (len : UInt32) (value : List UInt8) : Prop where
  small : len.toNat ≤ asn1ValueMaxLen
  bytes : value.length = (agentxValueEncTry len type).toNat

/-- An object identifier has 260 sub-identifiers at most. -/
theorem objidTail_ensures (head : UInt8 × UInt8) :
    Reader.Ensures (objidTail head) fun oid => oid.length ≤ 260 := by
  have hbound : head.1.toNat < 256 := head.1.toNat_lt
  rw [objidTail]
  split
  · exact .pure (by simp)
  · have hwords : Reader.Ensures (readWords head.1.toNat) fun ids => ids.length ≤ 255 := by
      refine .bind _ fun bs => .pure ?_
      rw [length_peekOid]
      omega
    refine hwords.bind_of fun ids hids => .pure ?_
    simp only [length_cons]
    omega

/-- What is delivered is sized. -/
theorem agentxValueDec_ensures (type : UInt8) :
    Reader.Ensures (agentxValueDec type) fun v => XSized type v.1 v.2 := by
  have hmax : asn1ValueMaxLen = 1024 := rfl
  have hone : (1 : UInt32).toNat ≤ asn1ValueMaxLen := by decide
  rw [agentxValueDec]
  cases hlayout : valueLayout type.toUInt16 with
  | word =>
    refine (Reader.Ensures.octets 4).bind_of fun bs hbs => .pure ⟨hone, ?_⟩
    rw [hbs, agentxValueEncTry, hlayout]
    rfl
  | long =>
    refine (Reader.Ensures.octets 8).bind_of fun bs hbs => .pure ⟨hone, ?_⟩
    rw [hbs, agentxValueEncTry, hlayout]
    rfl
  | string =>
    refine .bind _ fun len => ?_
    split
    · exact .halt
    · next hle =>
        refine (Reader.Ensures.octets len.toNat).bind_of fun bs hbs => .bind _ fun _ =>
          .pure ⟨not_lt.mp hle, ?_⟩
        rw [hbs, agentxValueEncTry, hlayout]
  | objid =>
    refine .bind _ fun head => .bind _ fun _ => ?_
    refine (objidTail_ensures head).bind_of fun oid hoid => .pure ?_
    have hlen : (UInt32.ofNat oid.length).toNat = oid.length := by
      rw [UInt32.toNat_ofNat_of_lt']
      change _ < 2 ^ 32
      omega
    refine ⟨by rw [hlen]; omega, ?_⟩
    rw [flatMap_leBytes_length, agentxValueEncTry, hlayout]
    dsimp only
    rw [UInt32.toNat_mul, hlen]
    simp only [UInt32.reduceToNat]
    omega
  | none =>
    refine .pure ⟨by decide, ?_⟩
    rw [agentxValueEncTry, hlayout]
    rfl

/-- What `agentx_set` writes for a varbind has the size that was reserved for it, and if the SET was
successful it is the value of the request. -/
def XEchoed (value : List UInt8) (r : OidSearchRes) : Prop :=
  let reserved := agentxValueEncTry r.var.len.toUInt32 r.var.tag
  (agentxValueEnc r.var.value reserved r.var.tag).length = reserved.toNat ∧
    (isFound (r.var.tag, r.errStat) = true → agentxValueEnc r.var.value reserved r.var.tag = value)

/-- The response varbind of `agentx_set` for a varbind, after the search has given `r`. -/
def XAnswersEchoed (h : Handlers σ) (root : MibNode) (vb : XVarBind) (cnt : UInt32)
    (xdg : AgentxDatagram) (ret r : OidSearchRes) (w w' : World Event σ) : Prop :=
  ∃ xdg' out, agentxSetLoop h root [vb] cnt xdg ret w = (some xdg', w') ∧
    xdg'.vbOutList = xdg.vbOutList ++ [out] ∧
    out.value.length = (agentxValueEncTry r.var.len.toUInt32 r.var.tag).toNat ∧
    ((notWritable r).errStat = 0 → out.valType = vb.valType ∧ out.value = vb.value)

theorem notWritable_errStat_eq_zero_iff (r : OidSearchRes) :
    (notWritable r).errStat = 0 ↔ isFound (r.var.tag, r.errStat) = true := by
  have herr : (notWritable r).errStat =
      if r.errStat = 0 ∧ asn1TagValid r.var.tag = false then agentxErrStatNotWritable
      else r.errStat := by
    rw [notWritable]
    split <;> rfl
  rw [herr]
  exact errStat_eq_zero_iff r (by decide)

theorem xAnswersEchoed_iff {h : Handlers σ} {root : MibNode} {vb : XVarBind} {cnt : UInt32}
    {xdg : AgentxDatagram} {w w' : World Event σ}
    (hrun : xMibSet h root vb (loadXValue vb ret) w = (some r, w')) :
    XAnswersEchoed h root vb cnt xdg ret r w w' ↔ XEchoed vb.value r := by
  set value := agentxValueEnc r.var.value (agentxValueEncTry r.var.len.toUInt32 r.var.tag)
    r.var.tag with hvalue
  have hloop : agentxSetLoop h root [vb] cnt xdg ret w =
      (some ((reportXError (notWritable r).errStat (cnt + 1) xdg).addOut
        (xVarBindOut r.oid vb.valType value)), w') := by
    rw [agentxSetLoop, bind_eq_of_some hrun]
    rfl
  have hout : ((reportXError (notWritable r).errStat (cnt + 1) xdg).addOut
      (xVarBindOut r.oid vb.valType value)).vbOutList =
        xdg.vbOutList ++ [xVarBindOut r.oid vb.valType value] := by
    rw [AgentxDatagram.addOut, reportXError]
    split <;> rfl
  rw [XAnswersEchoed, XEchoed]
  simp only [notWritable_errStat_eq_zero_iff]
  constructor
  · rintro ⟨xdg', out, hrun', hlist, hsize, hsame⟩
    obtain rfl := some.inj (Prod.mk.inj (hloop.symm.trans hrun')).1
    obtain rfl : xVarBindOut r.oid vb.valType value = out := by
      rw [hout] at hlist
      simpa using hlist
    exact ⟨hsize, fun hfound => (hsame hfound).2⟩
  · rintro ⟨hsize, hsame⟩
    exact ⟨_, _, hloop, hout, hsize, fun hfound => ⟨rfl, hsame hfound⟩⟩

theorem valueLayout_of_invalid {tag : UInt8} (h : asn1TagValid tag = false) :
    valueLayout tag.toUInt16 = .none := by
  have hall : ∀ b : UInt8, asn1TagValid b = false → valueLayout b.toUInt16 = .none :=
    forall_octet (by decide +kernel)
  exact hall tag h

theorem valueLayout_eq_objid_iff (tag : UInt8) :
    valueLayout tag.toUInt16 = .objid ↔ tag = asn1TagObjid := by
  have hall : ∀ b : UInt8, valueLayout b.toUInt16 = .objid ↔ b = asn1TagObjid :=
    forall_octet (by decide +kernel)
  exact hall tag

/-- The size of the values of a type other than an object identifier is the number of elements that
gives this size. -/
theorem agentxValueEncTry_again (h : type ≠ asn1TagObjid) (len : UInt32) :
    agentxValueEncTry (agentxValueEncTry len type) type = agentxValueEncTry len type := by
  cases hlayout : valueLayout type.toUInt16 with
  | objid => exact absurd ((valueLayout_eq_objid_iff type).mp hlayout) h
  | _ => simp [agentxValueEncTry, hlayout]

/-- **A value** is echoed over AgentX unless it is an object identifier with sub-identifiers. -/
theorem xEchoed_iff {vb : XVarBind} (h : SetAnswered (loadXValue vb ret).var r)
    (hsized : XSized vb.valType.toUInt8 vb.valLen vb.value) :
    XEchoed vb.value r ↔ (r.var.tag = asn1TagObjid → vb.valLen = 0) := by
  have hsmall := hsized.small
  have hmax : asn1ValueMaxLen = 1024 := rfl
  rw [XEchoed, agentxValueEnc, peekBytes_length]
  -- the tag of the varbind, or another one with which it is refused
  rcases h.tag with htag | hinvalid
  · have hback : vb.valLen.toUInt16.toUInt32 = vb.valLen := by
      rw [← UInt32.toNat_inj, UInt16.toNat_toUInt32, UInt32.toNat_toUInt16]
      omega
    have hlen : r.var.len.toUInt32 = vb.valLen := by rw [h.len, loadXValue, hback]
    have hvalue : r.var.value = vb.value ++ ret.var.value.drop vb.value.length := by
      rw [h.value, loadXValue]
      dsimp only
      rw [hback, ← hsized.bytes, peekBytes_self, pokeBytes]
    have htype : r.var.tag = vb.valType.toUInt8 := htag
    rw [hlen, htype]
    -- the size is taken for the number of elements, which only identifiers have
    by_cases hobjid : vb.valType.toUInt8 = asn1TagObjid
    · have htimes : ∀ len, agentxValueEncTry len asn1TagObjid = len * 4 := fun _ => rfl
      have hbytes := hsized.bytes
      rw [hobjid, htimes] at hbytes
      rw [hobjid, htimes, htimes, imp_iff_right rfl]
      constructor
      · rintro ⟨hsize, -⟩
        rw [UInt32.toNat_mul, UInt32.toNat_mul] at hsize
        simp only [UInt32.reduceToNat] at hsize
        rw [← UInt32.toNat_inj, UInt32.toNat_zero]
        omega
      · intro hzero
        have hnil : peekBytes r.var.value 0 = [] := by simp [peekBytes]
        rw [hzero] at hbytes ⊢
        exact ⟨rfl, fun _ => hnil.trans (eq_nil_of_length_eq_zero hbytes).symm⟩
    · rw [agentxValueEncTry_again hobjid]
      refine iff_of_true ⟨rfl, fun _ => ?_⟩ fun hyes => absurd hyes hobjid
      rw [← hsized.bytes, hvalue, peekBytes_append (Nat.le_refl _), peekBytes_self]
  · have hzero : ∀ len, agentxValueEncTry len r.var.tag = 0 := by
      intro len
      rw [agentxValueEncTry, valueLayout_of_invalid hinvalid]
    refine iff_of_true ⟨by simp only [hzero], fun hfound => ?_⟩ fun hobjid => ?_
    · simp [isFound, hinvalid] at hfound
    · rw [hobjid] at hinvalid
      cases hinvalid

/-- `agentx_set` echoes the varbinds with a type and a value, for every sub-agent with Lua groups
and from every search result that is carried along. -/
def AgentxSetEchoes (type : UInt16) (len : UInt32) (value : List UInt8) : Prop :=
  ∀ (σ : Type) (groups : Int → LuaGroup σ) (root : MibNode) (vb : XVarBind) (cnt : UInt32)
    (xdg : AgentxDatagram) (ret r : OidSearchRes) (w w' : World Event σ),
    vb.valType = type → vb.valLen = len → vb.value = value → ret.request = .set →
    xMibSet (luaHandlers groups) root vb (loadXValue vb ret) w = (some r, w') →
    XAnswersEchoed (luaHandlers groups) root vb cnt xdg ret r w w'

/-- A SET of the variable is successful over AgentX, too. -/
theorem xMibSet_accepting (hchecked : checkedTag type = true) {vb : XVarBind}
    (hoid : vb.oid = acceptingOid) (htype : vb.valType.toUInt8 = type) :
    ∃ r w', xMibSet (luaHandlers fun _ => acceptingGroup type) subagentRoot vb
        (loadXValue vb { request := .set }) ⟨(), []⟩ = (some r, w') ∧ r.var.tag = type := by
  have hcover : agentxDummyView <+: acceptingOid := by decide
  have hreq : (loadXValue vb { request := .set }).request = .set := rfl
  obtain ⟨r, w', hrun, hsettled, -⟩ := searchExact_settles
    (luaAgent subagentRoot {} fun _ => acceptingGroup type) hcover hreq ⟨(), []⟩
  have hsplit : splitCover acceptingOid [agentxDummyView] = some ([], []) := by decide
  have htag : (loadXValue vb { request := .set }).var.tag = type := htype
  have hout := setOutcome_accepting hchecked {} hsplit htag ()
  have hsame : (setOutcome (luaAgent subagentRoot {} fun _ => acceptingGroup type)
      [agentxDummyView] acceptingOid (loadXValue vb { request := .set }).var ()).1 =
        exactOutcome (luaAgent subagentRoot {} fun _ => acceptingGroup type) acceptingOid .set
          (luaPush (loadXValue vb { request := .set }).var) () := by
    rw [setOutcome, hsplit]
    rfl
  rw [hsame] at hout
  refine ⟨r, w', ?_, hsettled.tag.trans (congrArg Prod.fst hout)⟩
  rw [xMibSet, hoid, Traced.map_eq_bind]
  exact hrun

/-- **The varbinds that `agentx_set` echoes.** -/
theorem agentxSetEchoes_iff {type : UInt16} {len : UInt32} {value : List UInt8}
    (hreceived : XReceived type len value) :
    AgentxSetEchoes type len value ↔ (type.toUInt8 = asn1TagObjid → len = 0) := by
  obtain ⟨c, c', hdec⟩ := hreceived
  have hsized : XSized type.toUInt8 len value := agentxValueDec_ensures type.toUInt8 c _ c' hdec
  constructor
  · intro h hobjid
    let vb : XVarBind := { oid := acceptingOid, valType := type, valLen := len, value := value }
    have hchecked : checkedTag asn1TagObjid = true := rfl
    have hoid : vb.oid = acceptingOid := rfl
    obtain ⟨r, w', hrun, htag⟩ := xMibSet_accepting hchecked hoid hobjid
    have hanswers := h Unit _ subagentRoot vb 0 {} _ r ⟨(), []⟩ w' rfl rfl rfl rfl hrun
    have hreq : (loadXValue vb { request := .set }).request = .set := rfl
    have hkept := xMibSet_answers _ subagentRoot vb hreq _ _ _ hrun
    exact (xEchoed_iff hkept hsized).mp ((xAnswersEchoed_iff hrun).mp hanswers) htag
  · intro hcond σ groups root vb cnt xdg ret r w w' htype hlen hvalue hreq hrun
    subst htype hlen hvalue
    have hkept := xMibSet_answers groups root vb
      (show (loadXValue vb ret).request = .set from hreq) w r w' hrun
    refine (xAnswersEchoed_iff hrun).mpr ((xEchoed_iff hkept hsized).mpr fun htag => hcond ?_)
    rcases hkept.tag with hsame | hinvalid
    · exact hsame.symm.trans htag
    · rw [htag] at hinvalid
      cases hinvalid

/-! ### What is echoed -/

/-- **SET echoes its varbinds** over SNMP exactly for the numbers of 32 bits and for the object
identifiers whose size happens to be the number of their sub-identifiers, or nearly so, and over
AgentX for all values but the object identifiers with sub-identifiers. A number on which
`ber_int_dec` runs away is never answered. -/
theorem set_echoes_iff {type : UInt8} {content : List UInt8}
    (hcontent : content.length ≤ asn1ValueMaxLen) {xtype : UInt16} {len : UInt32}
    {value : List UInt8} (hreceived : XReceived xtype len value) :
    (SnmpSetEchoes type content ↔ Echoable type content) ∧
      (AgentxSetEchoes xtype len value ↔ (xtype.toUInt8 = asn1TagObjid → len = 0)) :=
  ⟨snmpSetEchoes_iff hcontent, agentxSetEchoes_iff hreceived⟩

/-- The identifier `1.3.6.1.4.1.9999` is echoed over SNMP, and an integer over AgentX. -/
theorem set_echoes_enterprise :
    SnmpSetEchoes asn1TagObjid [43, 6, 1, 4, 1, 0xce, 0x0f] ∧
      AgentxSetEchoes 2 1 [7, 0, 0, 0] := by
  have hcond : Echoable asn1TagObjid [43, 6, 1, 4, 1, 0xce, 0x0f] := by
    refine fun _ => ⟨7, by decide, by decide, by decide, fun v hv => .inl ⟨by decide, ?_⟩⟩
    rw [← hv]
    decide
  have hreceived : XReceived 2 1 [7, 0, 0, 0] := ⟨⟨[7, 0, 0, 0], 0⟩, _, rfl⟩
  have hlen : [43, 6, 1, 4, 1, 0xce, (0x0f : UInt8)].length ≤ asn1ValueMaxLen := by decide
  obtain ⟨hsnmp, hagentx⟩ := set_echoes_iff hlen hreceived
  exact ⟨hsnmp.mpr hcond, hagentx.mpr fun hobjid => absurd hobjid (by decide)⟩

/-- A SET of the variable to an object identifier. -/
def objidSet (content : List UInt8) : SnmpDatagram where
  contextName := [0x70]
  pduHdr := { pduType := snmpReqSet }
  vbInList := [acceptedVarBind asn1TagObjid content]

/-- The same over AgentX. -/
def objidTestset (oid : Oid) : AgentxDatagram where
  vbInList := [{
    oid := acceptingOid
    valType := 6
    valLen := UInt32.ofNat oid.length
    value := oid.flatMap leBytes }]

/-- The error status of the response to a SET, and the values in it. -/
def objidAnswer (content : List UInt8) : Option (Option (Int32 × List (List UInt8))) :=
  (snmpRequestDispatch (luaAgent subagentRoot oneScalarViews fun _ => acceptingGroup asn1TagObjid)
    (objidSet content) ⟨(), []⟩).1.map
      (Option.map fun sdg => (sdg.pduHdr.errStat, sdg.vbOutList.map (·.value)))

/-- **Object identifiers are not echoed**: over SNMP `1.3.6.1` comes back as `1.3.6`, in two octets
where three were reserved, and `1.3.6.1.4.1.99999` with an octet too many for its eight; over AgentX
80 bytes are written for `1.3.6.1.2` where 20 were reserved. -/
theorem objid_not_echoed :
    (objidAnswer [43, 6, 1] = some (some (0, [[43, 6]])) ∧
      ¬ SnmpSetEchoes asn1TagObjid [43, 6, 1]) ∧
    (objidAnswer [43, 6, 1, 4, 1, 0x86, 0x8d, 0x1f] =
        some (some (0, [[43, 6, 1, 4, 1, 0x86, 0x8d, 0x1f, 0]])) ∧
      ¬ SnmpSetEchoes asn1TagObjid [43, 6, 1, 4, 1, 0x86, 0x8d, 0x1f]) ∧
    ((agentxSet (luaHandlers fun _ => acceptingGroup asn1TagObjid) subagentRoot
        (objidTestset [1, 3, 6, 1, 2]) ⟨(), []⟩).1.map
          (fun xdg => (xdg.error, xdg.vbOutList.map (·.value.length))) = some (0, [80]) ∧
      ¬ AgentxSetEchoes 6 5 (([1, 3, 6, 1, 2] : Oid).flatMap leBytes)) := by
  have hreceived : XReceived 6 5 (([1, 3, 6, 1, 2] : Oid).flatMap leBytes) :=
    ⟨⟨[0, 2, 0, 0], 0⟩, _, rfl⟩
  refine ⟨⟨by decide +kernel, fun hyes => ?_⟩, ⟨by decide +kernel, fun hyes => ?_⟩,
    by decide +kernel, fun hyes => ?_⟩
  · obtain ⟨valLen, htry, -, hsize, -⟩ := (snmpSetEchoes_iff (by decide)).mp hyes (by decide)
    obtain rfl : 3 = valLen := some.inj htry
    exact absurd hsize (by decide)
  · obtain ⟨valLen, htry, hle, -⟩ := (snmpSetEchoes_iff (by decide)).mp hyes (by decide)
    obtain rfl : 8 = valLen := some.inj htry
    exact absurd hle (by decide)
  · exact absurd ((agentxSetEchoes_iff hreceived).mp hyes (by decide)) (by decide)

end SmithSnmp
