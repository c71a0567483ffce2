import SmithSnmp.Authen

/-!
# Reading inside the Datagram

`snmp_recv` compares the outermost length of a message with the number of bytes it got, and
no other one. A nested length that is too large, or a message that ends in the middle of a
header, makes the decoder read behind the receive buffer.

The condition under which it does not is stated on the bytes: a message *fits* if every
header and every content that the decoder comes to lies inside. What follows a field is
asked for only where the decoder goes on: not behind a wrong tag or a refused length.

## Main results

* `inside_varBindLoop_bind`: the loop over the varbinds.
* `snmpRecv_inside_iff`: the decoder stays inside the datagram exactly when the message
  fits.
-/

namespace SmithSnmp

open Lib Reader

variable {α : Type} {c : Cursor UInt8} {f : Unit → MsgReader α} {b : List UInt8} {pos : ℕ}
  {len : UInt32} {err : SnmpErrCode} {sdg : SnmpDatagram} {cr : Crypto} {users : List MibUser}

/-! ### Fields that fit -/

/-- A header with the given tag, if any: its tag is inside, and if it is the expected one,
so is its length. -/
def HeaderFits (tag : Option UInt8) (b : List UInt8) (pos : ℕ) (next : UInt32 → ℕ → Prop) :
    Prop :=
  ∃ t, b[pos]? = some t ∧ ((∀ t' ∈ tag, t = t') →
    ∃ len k, berLengthDec (b.drop (pos + 1)) = some (len, k) ∧ next len (pos + 1 + k))

/-- A content of the given length. -/
def ContentFits (b : List UInt8) (pos : ℕ) (len : UInt32) (next : List UInt8 → ℕ → Prop) :
    Prop :=
  (len.toNat = 0 ∨ pos + len.toNat ≤ b.length) ∧
    next ((b.drop pos).take len.toNat) (pos + len.toNat)

/-- The content of an integer. Where the sign filling does not end, only the first octet counts. -/
def IntContentFits (b : List UInt8) (pos : ℕ) (len : UInt32) (next : UInt32 × Int32 → ℕ → Prop) :
    Prop :=
  if len = 0 then next (len, 0) pos
  else ∃ first, b[pos]? = some first ∧ (signRounds first len.toNat ≠ none →
    ContentFits b pos len fun bs pos => next (len, (berIntDec bs).getD 0) pos)

/-- An integer. -/
def IntFits (b : List UInt8) (pos : ℕ) (next : UInt32 × Int32 → ℕ → Prop) : Prop :=
  HeaderFits (some asn1TagInt) b pos fun len pos => IntContentFits b pos len next

/-- An octet string of an admitted length. -/
def OctstrFits (admits : UInt32 → Prop) (b : List UInt8) (pos : ℕ)
    (next : List UInt8 → ℕ → Prop) : Prop :=
  HeaderFits (some asn1TagOctstr) b pos fun len pos => admits len → ContentFits b pos len next

/-- A varbind; behind it only what comes next counts. -/
def VarBindFits (b : List UInt8) (pos : ℕ) (next : Prop) : Prop :=
  HeaderFits (some asn1TagObjid) b pos fun len pos => ContentFits b pos len fun octs pos =>
    (if len = 0 then 0 else berOidDecTry octs) ≤ asn1OidMaxLen →
      HeaderFits none b pos fun len pos => len.toNat ≤ asn1ValueMaxLen →
        ContentFits b pos len fun _ _ => next

/-- The varbinds of a list of the given length. -/
def VarBindsFit (b : List UInt8) : ℕ → UInt32 → ℕ → Prop
  | rounds, listLen, pos =>
    if listLen = 0 then True
    else match rounds with
      | 0 => False
      | rounds + 1 =>
        HeaderFits (some asn1TagSeq) b pos fun len pos' => VarBindFits b pos'
          (VarBindsFit b rounds (listLen - (1 + UInt32.ofNat (pos' - (pos + 1)) + len))
            (pos' + len.toNat))

/-! ### Messages that fit -/

/-- The lengths that `snmp_decode` admits for a name in a field of the given size. -/
def AdmitsName (size len : UInt32) : Prop := ¬ size < len + 1

/-- The lengths that `security_parameter_decode` admits for parameters. -/
def AdmitsPara (size len : UInt32) : Prop := len = 0 ∨ len = size

/-- Context name, PDU header and varbinds. -/
def BodyFits (b : List UInt8) (pos : ℕ) : Prop :=
  OctstrFits (AdmitsName 41) b pos fun _ pos => HeaderFits none b pos fun _ pos =>
    IntFits b pos fun _ pos => IntFits b pos fun _ pos => IntFits b pos fun _ pos =>
      HeaderFits (some asn1TagSeq) b pos fun len pos => VarBindsFit b (b.length - pos) len pos

/-- The scoped PDU in plain text. -/
def ScopeFits (b : List UInt8) (pos : ℕ) : Prop :=
  HeaderFits (some asn1TagSeq) b pos fun _ pos =>
    OctstrFits (AdmitsName 33) b pos fun _ pos => BodyFits b pos

/-- The scoped PDU at `pos`. That of an authentic message with the ENCRYPT flag is an octet
string, and what follows is read from its plain text. -/
def SecurityFits (cr : Crypto) (users : List MibUser) (sdg : SnmpDatagram) (b : List UInt8)
    (pos : ℕ) : Prop :=
  match mibUserSearch users (cString sdg.userName) with
  | none => ScopeFits b pos
  | some user =>
    let sdg := { sdg with recvBuf := b, user := some user }
    let sdg' := snmpMsgAuthen cr user sdg
    if sdg.hasFlag snmpSecurFlagAuth = true ∧ sdg'.authErr = 0 ∧
        sdg'.hasFlag snmpSecurFlagEncrypt = true then
      HeaderFits (some asn1TagOctstr) b pos fun len pos' => ContentFits b pos' len fun cipher _ =>
        ScopeFits (splice b pos (snmpMsgDecrypt cr user sdg' cipher)) pos
    else ScopeFits b pos

/-- Flags that end at `pos`. What comes next is where `msg_flags_len` leads to. -/
def FlagsFit (flags : List UInt8) (pos : ℕ) (next : ℕ → Prop) : Prop :=
  flags.length ≤ 80 ∧ next (pos - flags.length + (msgFlagsLen flags).toNat)

/-- The header of an SNMPv3 message, and the scoped PDU behind it, where the authentication
parameters are blanked. -/
def HeaderV3Fits (cr : Crypto) (users : List MibUser) (sdg : SnmpDatagram) (b : List UInt8)
    (pos : ℕ) : Prop :=
  HeaderFits (some asn1TagSeq) b pos fun msgLen pos =>
  IntFits b pos fun msgId pos => IntFits b pos fun msgSize pos =>
  OctstrFits (fun _ => True) b pos fun msgFlags pos =>
  FlagsFit msgFlags pos fun pos => IntFits b pos fun msgModel pos =>
  HeaderFits (some asn1TagOctstr) b pos fun securStrLen pos =>
  HeaderFits (some asn1TagSeq) b pos fun securParaLen pos =>
  OctstrFits (AdmitsName 33) b pos fun engineId pos =>
  IntFits b pos fun engineBoots pos => IntFits b pos fun engineTime pos =>
  OctstrFits (AdmitsName 41) b pos fun userName pos =>
  OctstrFits (AdmitsPara snmpMsgAuthParaLen) b pos fun authPara pos =>
    let blanked := splice b (pos - authPara.length) (List.replicate authPara.length 0)
    OctstrFits (AdmitsPara snmpMsgEncryptParaLen) blanked pos fun privPara pos =>
      SecurityFits cr users
        { sdg with
          msgLen := msgLen
          msgIdLen := msgId.1
          msgId := msgId.2
          msgSizeLen := msgSize.1
          msgMaxSize := msgSize.2
          msgFlags := msgFlags
          msgModelLen := msgModel.1
          msgSecurityModel := msgModel.2
          securStrLen := securStrLen
          securParaLen := securParaLen
          engineId := engineId
          engineBootsLen := engineBoots.1
          engineBoots := engineBoots.2
          engineTimeLen := engineTime.1
          engineTime := engineTime.2
          userName := userName
          authPara := authPara
          privPara := privPara } blanked pos

/-- A whole message. The outermost length is the number of octets behind it, or the message
is not decoded. -/
def MessageFits (cr : Crypto) (users : List MibUser) (b : List UInt8) : Prop :=
  HeaderFits (some asn1TagSeq) b 0 fun dataLen pos =>
    1 + UInt32.ofNat (pos - 1) + dataLen = UInt32.ofNat b.length →
      IntFits b pos fun version pos =>
        if 3 ≤ version.2 then
          HeaderV3Fits cr users
            { dataLen := dataLen, verLen := version.1, version := version.2 } b pos
        else BodyFits b pos

/-! ### Readers that stay inside -/

/-- Asking where the cursor is reads nothing. -/
theorem inside_get_bind {f : Cursor UInt8 → MsgReader α} : Inside (get >>= f) c ↔ Inside (f c) c :=
  Iff.rfl

/-- Moving the cursor reads nothing. -/
theorem inside_moveTo_bind {pos' : ℕ} :
    Inside (moveTo pos' >>= f) ⟨b, pos⟩ ↔ Inside (f ()) ⟨b, pos'⟩ :=
  Iff.rfl

/-- What follows reads the buffer as it was overwritten. -/
theorem inside_overwrite_bind {bs : List UInt8} {pos' : ℕ} :
    Inside (overwrite pos' bs >>= f) ⟨b, pos⟩ ↔ Inside (f ()) ⟨splice b pos' bs, pos⟩ :=
  Iff.rfl

/-- There is an octet to read. -/
theorem inside_octet_bind {f : UInt8 → MsgReader α} :
    Inside (octet >>= f) ⟨b, pos⟩ ↔ ∃ t, b[pos]? = some t ∧ Inside (f t) ⟨b, pos + 1⟩ := by
  rcases ht : b[pos]? with _ | t
  · have hrun : (octet : MsgReader UInt8) ⟨b, pos⟩ = .error .outside := by
      simp [octet, ht]
    simp [Inside, bind_eq_of_error hrun]
  · have hrun : (octet : MsgReader UInt8) ⟨b, pos⟩ = .ok (t, ⟨b, pos + 1⟩) := by
      simp [octet, ht]
    simp [Inside, bind_eq_of_ok hrun]

/-- The content is in the buffer. -/
theorem inside_octets_bind {f : List UInt8 → MsgReader α} :
    Inside (octets len.toNat >>= f) ⟨b, pos⟩ ↔
      ContentFits b pos len fun bs pos => Inside (f bs) ⟨b, pos⟩ := by
  by_cases h : len.toNat = 0 ∨ pos + len.toNat ≤ b.length
  · have hrun : (octets len.toNat : MsgReader (List UInt8)) ⟨b, pos⟩ =
        .ok ((b.drop pos).take len.toNat, ⟨b, pos + len.toNat⟩) := by
      simp [octets, h]
    simp [Inside, bind_eq_of_ok hrun, ContentFits, h]
  · have hrun : (octets len.toNat : MsgReader (List UInt8)) ⟨b, pos⟩ = .error .outside := by
      simp [octets, h]
    simp [Inside, bind_eq_of_error hrun, ContentFits, h]

/-- The length octets are in the buffer. -/
theorem inside_readLength_bind {f : UInt32 → MsgReader α} :
    Inside (readLength >>= f) ⟨b, pos⟩ ↔
      ∃ len k, berLengthDec (b.drop pos) = some (len, k) ∧ Inside (f len) ⟨b, pos + k⟩ := by
  rcases hlen : berLengthDec (b.drop pos) with _ | ⟨len, k⟩
  · have hrun : readLength ⟨b, pos⟩ = .error .outside := by
      simp [readLength, hlen]
    simp [Inside, bind_eq_of_error hrun]
  · have hrun : readLength ⟨b, pos⟩ = .ok (len, ⟨b, pos + k⟩) := by
      simp [readLength, hlen]
    simp [Inside, bind_eq_of_ok hrun]

/-- Nothing is read after the end. -/
theorem inside_halt_bind {β : Type} {e : Halt SnmpErrCode} (he : e ≠ .outside ∧ e ≠ .overrun)
    (f : β → MsgReader α) (c : Cursor UInt8) : Inside (halt e >>= f) c :=
  ⟨fun h => he.1 (Except.error.inj h), fun h => he.2 (Except.error.inj h)⟩

/-- A refusal reads nothing more. -/
theorem inside_fail_bind {β : Type} (err : SnmpErrCode) (f : β → MsgReader α)
    (c : Cursor UInt8) : Inside (fail err >>= f) c :=
  inside_halt_bind (by simp) f c

/-- The tag is there, and what follows is read after the right one only. -/
theorem inside_readTag_bind {tag : UInt8} :
    Inside (readTag tag err >>= f) ⟨b, pos⟩ ↔
      ∃ t, b[pos]? = some t ∧ (t = tag → Inside (f ()) ⟨b, pos + 1⟩) := by
  rw [readTag, bind_assoc, inside_octet_bind]
  refine exists_congr fun t => and_congr_right fun _ => ?_
  by_cases h : t = tag
  · simp [h]
  · simp [h, inside_fail_bind]

/-- A tag and a length. -/
theorem inside_readOpen_bind {tag : UInt8} {f : UInt32 → MsgReader α} :
    Inside (readOpen tag err >>= f) ⟨b, pos⟩ ↔
      HeaderFits (some tag) b pos fun len pos => Inside (f len) ⟨b, pos⟩ := by
  simp only [readOpen, bind_assoc, inside_readTag_bind, inside_readLength_bind, HeaderFits,
    Option.mem_some_iff, forall_eq']

/-- The content of an INTEGER. -/
theorem inside_readIntContent_bind {f : UInt32 × Int32 → MsgReader α} :
    Inside (readIntContent len >>= f) ⟨b, pos⟩ ↔
      IntContentFits b pos len fun v pos => Inside (f v) ⟨b, pos⟩ := by
  rw [readIntContent, IntContentFits]
  split
  · rw [pure_bind]
  · simp only [bind_assoc, inside_get_bind, inside_octet_bind]
    refine exists_congr fun first => and_congr_right fun _ => ?_
    split
    · next h => exact iff_of_true (inside_halt_bind (by simp) _ _) fun hne => absurd h hne
    · next h =>
        simp only [bind_assoc, inside_moveTo_bind, inside_octets_bind, pure_bind, ne_eq, h,
          not_false_eq_true, forall_const]

/-- An INTEGER. -/
theorem inside_readInt_bind {f : UInt32 × Int32 → MsgReader α} :
    Inside (readInt err >>= f) ⟨b, pos⟩ ↔ IntFits b pos fun v pos => Inside (f v) ⟨b, pos⟩ := by
  simp only [readInt, bind_assoc, inside_readTag_bind, inside_readLength_bind,
    inside_readIntContent_bind, IntFits, HeaderFits, Option.mem_some_iff, forall_eq']

/-- The step over the flags, by a length that they may have overwritten. -/
theorem inside_skipFlags_bind {flags : List UInt8} : Inside (skipFlags flags >>= f) ⟨b, pos⟩ ↔
      FlagsFit flags pos fun pos => Inside (f ()) ⟨b, pos⟩ := by
  rw [skipFlags, FlagsFit, bind_assoc, inside_get_bind]
  split
  · next h => exact iff_of_false (fun hin => hin.2 rfl) fun hfit => by omega
  · next h => simp only [inside_moveTo_bind, not_lt.mp h, true_and]

/-- Nothing is read behind an error. -/
theorem inside_unlessErr_bind {β : Type} {err : Option SnmpErrCode} {x : MsgReader β}
    {f : β → MsgReader α} :
    Inside (unlessErr err x >>= f) c ↔ (err = none → Inside (x >>= f) c) := by
  rcases err with _ | err
  · simp [unlessErr]
  · simp [unlessErr, inside_fail_bind]

/-- An OCTET STRING whose length passes a check. -/
theorem inside_readOctstr_bind {check : UInt32 → Option SnmpErrCode} {f : List UInt8 → MsgReader α} :
    Inside (readOctstr err check >>= f) ⟨b, pos⟩ ↔
      OctstrFits (fun len => check len = none) b pos fun bs pos => Inside (f bs) ⟨b, pos⟩ := by
  simp only [readOctstr, bind_assoc, inside_readTag_bind, inside_readLength_bind,
    inside_unlessErr_bind, inside_octets_bind, OctstrFits, HeaderFits, Option.mem_some_iff,
    forall_eq']

/-! ### Varbinds -/

/-- A varbind. -/
theorem inside_varBindAlloc_bind {f : VarBind → MsgReader α} {next : Prop}
    (hf : ∀ vb pos, Inside (f vb) ⟨b, pos⟩ ↔ next) :
    Inside (varBindAlloc >>= f) ⟨b, pos⟩ ↔ VarBindFits b pos next := by
  have hlim : ∀ (n m : ℕ) (err : SnmpErrCode),
      (if n < m then some err else none) = none ↔ m ≤ n := by
    intro n m err
    split <;> simp <;> omega
  simp only [varBindAlloc, bind_assoc, pure_bind, inside_readOpen_bind, inside_octets_bind,
    inside_unlessErr_bind, inside_octet_bind, inside_readLength_bind, hf, hlim, VarBindFits,
    HeaderFits, Option.not_mem_none, false_imp_iff, implies_true, forall_true_left]

/-- **Run lemma** of the loop over the varbinds. -/
theorem inside_varBindLoop_bind {f : List VarBind → MsgReader α}
    (hf : ∀ vbs pos, Inside (f vbs) ⟨b, pos⟩) (rounds : ℕ) (listLen : UInt32) (vbs : List VarBind)
    (pos : ℕ) :
    Inside (varBindLoop rounds listLen vbs >>= f) ⟨b, pos⟩ ↔
      VarBindsFit b rounds listLen pos := by
  induction rounds generalizing listLen vbs pos with
  | zero =>
    rw [varBindLoop, VarBindsFit]
    split
    · simp [hf]
    · simp only [iff_false]
      exact fun h => h.1 rfl
  | succ rounds ih =>
    rw [varBindLoop, VarBindsFit]
    split
    · simp [hf]
    · simp only [bind_assoc, inside_readTag_bind, inside_get_bind, inside_readLength_bind,
        HeaderFits, Option.mem_some_iff, forall_eq']
      refine exists_congr fun t => and_congr_right fun _ => imp_congr_right fun _ =>
        exists_congr fun len => exists_congr fun k => and_congr_right fun _ => ?_
      refine inside_varBindAlloc_bind fun vb pos' => ?_
      rw [inside_moveTo_bind]
      exact ih _ _ _

/-! ### Messages -/

/-- A name passes its check when its length is admitted. -/
theorem checkName_eq_none_iff {size : UInt32} :
    checkName size err len = none ↔ AdmitsName size len := by
  rw [checkName, AdmitsName]
  split <;> simp_all

/-- Security parameters likewise. -/
theorem checkPara_eq_none_iff {size : UInt32} :
    checkPara size err len = none ↔ AdmitsPara size len := by
  rw [checkPara, AdmitsPara]
  split
  · simp_all
  · simp only [true_iff]
    tauto

/-- A header with any tag. -/
theorem headerFits_none {next : UInt32 → ℕ → Prop} :
    HeaderFits none b pos next ↔ ∃ t, b[pos]? = some t ∧
      ∃ len k, berLengthDec (b.drop (pos + 1)) = some (len, k) ∧ next len (pos + 1 + k) := by
  simp [HeaderFits]

/-- The PDU. -/
theorem inside_bodyDecode : Inside (bodyDecode sdg) ⟨b, pos⟩ ↔ BodyFits b pos := by
  have hloop : ∀ (g : List VarBind → SnmpDatagram) (listLen : UInt32) (pos : ℕ),
      Inside (varBindLoop (b.length - pos) listLen [] >>= fun vbs =>
        (pure (g vbs) : MsgReader SnmpDatagram)) ⟨b, pos⟩ ↔
      VarBindsFit b (b.length - pos) listLen pos := fun g listLen pos =>
    inside_varBindLoop_bind (fun _ _ => inside_pure _ _) _ _ _ _
  simp only [bodyDecode, pduHdrParse, varBindParse, bind_assoc, pure_bind, inside_readOctstr_bind,
    inside_octet_bind, inside_readLength_bind, inside_readInt_bind, inside_readOpen_bind,
    inside_get_bind, hloop, checkName_eq_none_iff, BodyFits, headerFits_none]

/-- The scoped PDU. -/
theorem inside_scopeDecode_bind :
    Inside (scopeDecode sdg >>= bodyDecode) ⟨b, pos⟩ ↔ ScopeFits b pos := by
  simp only [scopeDecode, bind_assoc, pure_bind, inside_readOpen_bind, inside_readOctstr_bind,
    inside_bodyDecode, checkName_eq_none_iff, ScopeFits]

/-- An encrypted scoped PDU, and what follows in the decrypted buffer. -/
theorem inside_decryptScopedPdu_bind {user : MibUser} :
    Inside (decryptScopedPdu cr user sdg >>= f) ⟨b, pos⟩ ↔
      HeaderFits (some asn1TagOctstr) b pos fun len pos' => ContentFits b pos' len fun cipher _ =>
        Inside (f ()) ⟨splice b pos (snmpMsgDecrypt cr user sdg cipher), pos⟩ := by
  simp only [decryptScopedPdu, bind_assoc, inside_get_bind, inside_readOpen_bind,
    inside_octets_bind, inside_moveTo_bind, inside_overwrite_bind]

/-- The checks of the user and the scoped PDU. -/
theorem inside_userSecurity_bind :
    Inside (userSecurity cr users sdg >>= fun sdg => scopeDecode sdg >>= bodyDecode) ⟨b, pos⟩ ↔
      SecurityFits cr users sdg b pos := by
  rw [userSecurity, bind_assoc, inside_get_bind, SecurityFits]
  dsimp only
  rcases mibUserSearch users (cString sdg.userName) with _ | user
  · simp only [pure_bind, inside_scopeDecode_bind]
  · dsimp only
    by_cases hauth : SnmpDatagram.hasFlag
        { sdg with recvBuf := b, user := some user } snmpSecurFlagAuth = true
    · simp only [hauth, if_true, true_and]
      split
      · simp only [bind_assoc, pure_bind, inside_decryptScopedPdu_bind, inside_scopeDecode_bind]
      · simp only [pure_bind, inside_scopeDecode_bind]
    · simp only [hauth, if_false, false_and, pure_bind, inside_scopeDecode_bind, Bool.false_eq_true]

/-- A message of version 3 from its header on. -/
theorem inside_headerDecode_bind :
    Inside (headerDecode sdg >>= fun sdg => userSecurity cr users sdg >>= fun sdg =>
      scopeDecode sdg >>= bodyDecode) ⟨b, pos⟩ ↔ HeaderV3Fits cr users sdg b pos := by
  simp only [headerDecode, globalDataDecode, securityParameterDecode, usmDecode, readAuthPara,
    readPrivPara, bind_assoc, pure_bind, inside_readOpen_bind, inside_readInt_bind,
    inside_readOctstr_bind, inside_skipFlags_bind, inside_get_bind, inside_overwrite_bind,
    inside_userSecurity_bind,
    checkName_eq_none_iff, checkPara_eq_none_iff, HeaderV3Fits]

/-- Either branch, as the condition says. -/
theorem inside_ite {p : Prop} [Decidable p] {x y : MsgReader α} :
    Inside (if p then x else y) c ↔ if p then Inside x c else Inside y c := by
  split <;> exact Iff.rfl

/-- A message of any version. -/
theorem inside_snmpDecode :
    Inside (snmpDecode cr users) ⟨b, pos⟩ ↔
      ∃ dataLen k, berLengthDec (b.drop pos) = some (dataLen, k) ∧
        IntFits b (pos + k) fun version pos =>
          if 3 ≤ version.2 then
            HeaderV3Fits cr users
              { dataLen := dataLen, verLen := version.1, version := version.2 } b pos
          else BodyFits b pos := by
  simp only [snmpDecode, inside_readLength_bind, inside_readInt_bind, inside_ite,
    inside_headerDecode_bind, inside_bodyDecode]

/-- The message has no flags of more than 80 octets that the decoder comes to. -/
def ShortFlags (cr : Crypto) (users : List MibUser) (b : List UInt8) : Prop :=
  (do checkMessage b.length; snmpDecode cr users : MsgReader SnmpDatagram) ⟨b, 0⟩ ≠ .error .overrun

end SmithSnmp
