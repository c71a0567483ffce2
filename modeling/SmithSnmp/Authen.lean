import SmithSnmp.MsgIn

/-!
# Message Authentication

`security_parameter_decode` admits authentication parameters of 12 octets or none at all,
and blanks them in the received buffer; `snmp_msg_authen` compares as many octets of the
MAC as there are parameters. A message without them passes the comparison of nothing.

## Main results

* `readAuthPara_eq_ok`: what is read, and what is left in the buffer.
* `snmpMsgAuthen_sound_iff`: an accepted message carries the MAC of itself, if and only if
  the parameters are there or the MAC cannot be computed.
-/

namespace SmithSnmp

open Lib Reader

/-! ### Reading the fields -/

/-- Reading a tag leaves the buffer as it is. -/
theorem readTag_keeps (tag : UInt8) (err : SnmpErrCode) : Keeps (readTag tag err) := by
  refine Keeps.octet.bind fun t => ?_
  split
  · exact Keeps.halt _
  · exact Keeps.pure ()

/-- So does reading a length, -/
theorem readLength_keeps : Keeps readLength := by
  intro c len c' h
  rw [readLength] at h
  split at h
  · cases h
  · obtain ⟨-, rfl⟩ := Prod.mk.inj (Except.ok.inj h)
    rfl

/-- a tag with its length, -/
theorem readOpen_keeps (tag : UInt8) (err : SnmpErrCode) : Keeps (readOpen tag err) :=
  (readTag_keeps tag err).bind fun _ => readLength_keeps

/-- an INTEGER, -/
theorem readInt_keeps (err : SnmpErrCode) : Keeps (readInt err) := by
  refine (readTag_keeps _ err).bind fun _ => readLength_keeps.bind fun len => ?_
  rw [readIntContent]
  split
  · exact Keeps.pure _
  · refine Keeps.get.bind fun _ => Keeps.octet.bind fun _ => ?_
    split
    · exact Keeps.halt _
    · exact (Keeps.moveTo _).bind fun _ => (Keeps.octets _).bind fun _ => Keeps.pure _

/-- an OCTET STRING, -/
theorem readOctstr_keeps (err : SnmpErrCode) (check : UInt32 → Option SnmpErrCode) :
    Keeps (readOctstr err check) := by
  refine (readTag_keeps _ err).bind fun _ => readLength_keeps.bind fun len => ?_
  rcases check len with _ | err'
  · exact Keeps.octets _
  · exact Keeps.halt _

/-- and stepping over the flags. -/
theorem skipFlags_keeps (flags : List UInt8) : Keeps (skipFlags flags) := by
  refine Keeps.get.bind fun _ => ?_
  split
  · exact Keeps.halt _
  · exact Keeps.moveTo _

/-- The global data are read from the buffer as it was received, -/
theorem globalDataDecode_keeps (sdg : SnmpDatagram) : Keeps (globalDataDecode sdg) :=
  (readInt_keeps _).bind fun _ => (readInt_keeps _).bind fun _ =>
    (readOctstr_keeps _ _).bind fun _ => (skipFlags_keeps _).bind fun _ =>
      (readInt_keeps _).bind fun _ => Keeps.pure _

/-- the security parameters too, -/
theorem usmDecode_keeps (sdg : SnmpDatagram) : Keeps (usmDecode sdg) :=
  (readOpen_keeps _ _).bind fun _ => (readOpen_keeps _ _).bind fun _ =>
    (readOctstr_keeps _ _).bind fun _ => (readInt_keeps _).bind fun _ =>
      (readInt_keeps _).bind fun _ => (readOctstr_keeps _ _).bind fun _ => Keeps.pure _

/-- What is read as an octet string: a part of the buffer of an admitted length, behind
which the cursor is now. -/
theorem readOctstr_eq_ok {err : SnmpErrCode} {check : UInt32 → Option SnmpErrCode}
    {c c' : Cursor UInt8} {bs : List UInt8} (h : readOctstr err check c = .ok (bs, c')) :
    ∃ (len : UInt32) (pos : ℕ), check len = none ∧
      (len.toNat = 0 ∨ pos + len.toNat ≤ c.buf.length) ∧
      bs = (c.buf.drop pos).take len.toNat ∧ c' = ⟨c.buf, pos + len.toNat⟩ := by
  obtain ⟨⟨⟩, c₁, htag, h⟩ := bind_eq_ok_iff.mp h
  obtain ⟨len, c₂, hlen, h⟩ := bind_eq_ok_iff.mp h
  have hbuf : c₂.buf = c.buf := by
    rw [readLength_keeps c₁ len c₂ hlen, readTag_keeps _ _ c _ c₁ htag]
  rcases hcheck : check len with _ | err'
  · rw [hcheck, unlessErr] at h
    obtain ⟨hin, rfl, rfl⟩ := octets_eq_ok_iff.mp h
    rw [hbuf] at hin ⊢
    exact ⟨len, c₂.pos, hcheck, hin, rfl, rfl⟩
  · rw [hcheck, unlessErr] at h
    cases h

/-- What is read as authentication parameters: none or 12 octets, which are zero in the
buffer afterwards. -/
theorem readAuthPara_eq_ok {c c' : Cursor UInt8} {authPara : List UInt8}
    (h : readAuthPara c = .ok (authPara, c')) :
    (authPara = [] ∧ c'.buf = c.buf) ∨
      (authPara.length = 12 ∧ ∃ pos, c'.pos = pos + 12 ∧ pos + 12 ≤ c.buf.length ∧
        authPara = (c.buf.drop pos).take 12 ∧
        c'.buf = c.buf.take pos ++ (List.replicate 12 0 ++ c.buf.drop (pos + 12))) := by
  obtain ⟨bs, c₁, hread, h⟩ := bind_eq_ok_iff.mp h
  obtain ⟨c₂, c₃, hget, h⟩ := bind_eq_ok_iff.mp h
  obtain ⟨rfl, rfl⟩ := Prod.mk.inj (Except.ok.inj hget)
  obtain ⟨⟨⟩, c₄, hwrite, h⟩ := bind_eq_ok_iff.mp h
  obtain ⟨rfl, rfl⟩ := Prod.mk.inj (Except.ok.inj h)
  obtain ⟨-, rfl⟩ := Prod.mk.inj (Except.ok.inj hwrite)
  obtain ⟨len, pos, hcheck, hin, rfl, rfl⟩ := readOctstr_eq_ok hread
  have hadm : len = 0 ∨ len = snmpMsgAuthParaLen := by
    by_contra hcon
    rw [checkPara, if_pos (not_or.mp hcon)] at hcheck
    cases hcheck
  rcases hadm with rfl | rfl
  · exact .inl ⟨rfl, splice_nil _ _⟩
  · have hle : pos + 12 ≤ c.buf.length := hin.resolve_left (by decide)
    have hlen : ((c.buf.drop pos).take 12).length = 12 := by
      rw [List.length_take, List.length_drop]
      omega
    refine .inr ⟨hlen, pos, rfl, hle, rfl, ?_⟩
    change splice c.buf (pos + 12 - ((c.buf.drop pos).take 12).length)
      (List.replicate ((c.buf.drop pos).take 12).length 0) = _
    rw [hlen, Nat.add_sub_cancel, splice_eq (by simpa using hle), List.length_replicate]

/-! ### Soundness -/

/-- The decoder of a message up to the authentication parameters. -/
def decodeToAuthPara (len : ℕ) : MsgReader SnmpDatagram := do
  checkMessage len
  let dataLen ← readLength
  let version ← readInt .version
  let msgLen ← readOpen asn1TagSeq .globalDataLen
  let sdg ← globalDataDecode
    { dataLen := dataLen, verLen := version.1, version := version.2, msgLen := msgLen }
  usmDecode sdg

/-- The decoder of a message with its security parameters. -/
def decodeToPrivPara (len : ℕ) : MsgReader (SnmpDatagram × List UInt8 × List UInt8) := do
  let sdg ← decodeToAuthPara len
  let authPara ← readAuthPara
  let privPara ← readPrivPara
  pure (sdg, authPara, privPara)

/-- and so are the tag and the length of the message. -/
theorem checkMessage_keeps (len : ℕ) : Keeps (checkMessage len) := by
  refine (readTag_keeps _ _).bind fun _ => Keeps.get.bind fun _ => readLength_keeps.bind fun _ =>
    Keeps.get.bind fun _ => ?_
  split
  · exact Keeps.halt _
  · exact Keeps.moveTo 1

/-- All that is decoded up to the digest leaves the buffer as it is. -/
theorem decodeToAuthPara_keeps (len : ℕ) : Keeps (decodeToAuthPara len) :=
  (checkMessage_keeps len).bind fun _ => readLength_keeps.bind fun _ =>
    (readInt_keeps _).bind fun _ => (readOpen_keeps _ _).bind fun _ =>
      (globalDataDecode_keeps _).bind fun _ => usmDecode_keeps _

/-- So far nothing is authenticated. -/
theorem decodeToAuthPara_authErr (len : ℕ) :
    Ensures (decodeToAuthPara len) fun sdg => sdg.authErr = 0 := by
  have husm : ∀ sdg, sdg.authErr = 0 → Ensures (usmDecode sdg) fun sdg' => sdg'.authErr = 0 :=
    fun sdg h => .bind _ fun _ => .bind _ fun _ => .bind _ fun _ => .bind _ fun _ =>
      .bind _ fun _ => .bind _ fun _ => .pure h
  have hglobal : ∀ sdg, sdg.authErr = 0 →
      Ensures (globalDataDecode sdg) fun sdg' => sdg'.authErr = 0 :=
    fun sdg h => .bind _ fun _ => .bind _ fun _ => .bind _ fun _ => .bind _ fun _ =>
      .bind _ fun _ => .pure h
  exact .bind _ fun _ => .bind _ fun _ => .bind _ fun _ => .bind _ fun _ =>
    (hglobal _ rfl).bind_of husm

/-- A message with the 12 octets from `pos` on zeroed. -/
def blankPara (b : List UInt8) (pos : ℕ) : List UInt8 :=
  b.take pos ++ (List.replicate 12 0 ++ b.drop (pos + 12))

/-- What authentication is to establish: the parameters, which end at `stop` in the message,
are 12 octets, and the first 12 octets of the MAC of the message with them zeroed. -/
def CarriesMac (cr : Crypto) (user : MibUser) (b authPara : List UInt8) (stop : ℕ) : Prop :=
  authPara.length = 12 ∧ 12 ≤ stop ∧ authPara = (b.drop (stop - 12)).take 12 ∧
    authPara = (userMac cr user (blankPara b (stop - 12))).2.take 12

/-- When `snmp_msg_authen` finds nothing wrong. -/
theorem snmpMsgAuthen_authErr_eq_zero_iff (cr : Crypto) (user : MibUser) {sdg : SnmpDatagram}
    (h : sdg.authErr = 0) :
    (snmpMsgAuthen cr user sdg).authErr = 0 ↔
      (userMac cr user sdg.recvBuf).1 = 0 ∧
        (userMac cr user sdg.recvBuf).2.take sdg.authPara.length = sdg.authPara := by
  have hgen : snmpErrStatGenErr.toUInt32.toUInt8 ≠ 0 := by decide
  have hauth : snmpErrStatAuthorization.toUInt32.toUInt8 ≠ 0 := by decide
  rw [snmpMsgAuthen]
  rcases userMac cr user sdg.recvBuf with ⟨ret, mac⟩
  dsimp only
  by_cases hret : ret = 0
  · by_cases hmac : mac.take sdg.authPara.length = sdg.authPara
    · simp [hret, hmac, h]
    · simp [hret, hmac, hauth]
  · simp [hret, hgen]

/-- The datagram that is given to `snmp_msg_authen`. -/
def authenInput (sdg : SnmpDatagram) (authPara privPara recvBuf : List UInt8) (user : MibUser) :
    SnmpDatagram :=
  { sdg with authPara := authPara, privPara := privPara, recvBuf := recvBuf, user := some user }

/-- With authentication parameters, a message that is accepted carries its MAC. -/
theorem carriesMac_of_accepted {cr : Crypto} {b : List UInt8} {sdg : SnmpDatagram}
    {c c₁ c₂ : Cursor UInt8} {authPara privPara : List UInt8}
    (hbefore : decodeToAuthPara b.length ⟨b, 0⟩ = .ok (sdg, c))
    (hauth : readAuthPara c = .ok (authPara, c₁)) (hpriv : readPrivPara c₁ = .ok (privPara, c₂))
    {user : MibUser} (hne : authPara ≠ [])
    (hzero : (snmpMsgAuthen cr user
      (authenInput sdg authPara privPara c₂.buf user)).authErr = 0) :
    CarriesMac cr user b authPara c₁.pos := by
  have hbuf : c.buf = b := decodeToAuthPara_keeps _ _ _ _ hbefore
  have hbuf₂ : c₂.buf = c₁.buf := readOctstr_keeps _ _ _ _ _ hpriv
  have herr : sdg.authErr = 0 := decodeToAuthPara_authErr _ _ _ _ hbefore
  obtain ⟨-, hmac⟩ := (snmpMsgAuthen_authErr_eq_zero_iff cr user (by exact herr)).mp hzero
  rcases readAuthPara_eq_ok hauth with ⟨hnil, -⟩ | ⟨hlen, pos, hpos, -, hpara, hbuf₁⟩
  · exact absurd hnil hne
  · have hstop : c₁.pos - 12 = pos := by omega
    rw [authenInput, hlen, hbuf₂, hbuf₁, hbuf] at hmac
    rw [hbuf] at hpara
    exact ⟨hlen, by omega, by rw [hstop]; exact hpara, by rw [hstop]; exact hmac.symm⟩

/-- **Soundness of authentication.** For every message whose security parameters are
accepted and every user: a message that is accepted as authentic carries the MAC of itself,
if and only if it has authentication parameters at all, or its MAC cannot be computed. -/
theorem snmpMsgAuthen_sound_iff (cr : Crypto) {b : List UInt8} {sdg : SnmpDatagram}
    {c c₁ c₂ : Cursor UInt8} {authPara privPara : List UInt8}
    (hbefore : decodeToAuthPara b.length ⟨b, 0⟩ = .ok (sdg, c))
    (hauth : readAuthPara c = .ok (authPara, c₁)) (hpriv : readPrivPara c₁ = .ok (privPara, c₂))
    (user : MibUser) :
    ((snmpMsgAuthen cr user (authenInput sdg authPara privPara c₂.buf user)).authErr = 0 →
        CarriesMac cr user b authPara c₁.pos) ↔
      authPara ≠ [] ∨ (userMac cr user b).1 ≠ 0 := by
  by_cases hnil : authPara = []
  · subst hnil
    have hbuf : c₂.buf = b := by
      have hkeep : c.buf = b := decodeToAuthPara_keeps _ _ _ _ hbefore
      rw [readOctstr_keeps _ _ _ _ _ hpriv, ← hkeep]
      rcases readAuthPara_eq_ok hauth with ⟨-, hbuf₁⟩ | ⟨hlen, -⟩
      · exact hbuf₁
      · cases hlen
    have herr : sdg.authErr = 0 := decodeToAuthPara_authErr _ _ _ _ hbefore
    rw [snmpMsgAuthen_authErr_eq_zero_iff cr user (by exact herr), authenInput, hbuf]
    simp [CarriesMac]
  · exact ⟨fun _ => .inl hnil, fun _ => carriesMac_of_accepted hbefore hauth hpriv hnil⟩

/-! ### Messages of a user with a password -/

/-- A GET request of the user `u` with the AUTH flag and no authentication parameters. -/
def unsignedMessage : List UInt8 :=
  [0x30, 64, 2, 1, 3, 0x30, 13, 2, 1, 1, 2, 2, 5, 220, 4, 1, 1, 2, 1, 3,
    4, 17, 0x30, 15, 4, 0, 2, 1, 0, 2, 1, 0, 4, 1, 0x75, 4, 0, 4, 0,
    0x30, 25, 4, 0, 4, 0, 0xa0, 19, 2, 1, 1, 2, 1, 0, 2, 1, 0,
    0x30, 8, 0x30, 6, 6, 2, 0x2b, 0, 5, 0]

/-- The same request, signed: with `plainCrypto` the MAC is the start of the message. -/
def signedMessage : List UInt8 :=
  [0x30, 76, 2, 1, 3, 0x30, 13, 2, 1, 1, 2, 2, 5, 220, 4, 1, 1, 2, 1, 3,
    4, 29, 0x30, 27, 4, 0, 2, 1, 0, 2, 1, 0, 4, 1, 0x75,
    4, 12, 0x30, 76, 2, 1, 3, 0x30, 13, 2, 1, 1, 2, 2, 4, 0,
    0x30, 25, 4, 0, 4, 0, 0xa0, 19, 2, 1, 1, 2, 1, 0, 2, 1, 0,
    0x30, 8, 0x30, 6, 6, 2, 0x2b, 0, 5, 0]

/-- The message without parameters is accepted as authentic. -/
theorem unsignedMessage_accepted :
    (snmpRecv plainCrypto passwordViews.users unsignedMessage).toOption.map
        (fun sdg => (sdg.hasFlag snmpSecurFlagAuth, sdg.user.isSome, sdg.authErr,
          sdg.authPara, sdg.vbInList.length)) = some (true, true, 0, [], 1) := by
  decide +kernel

/-- The signed message is accepted, and carries its MAC. -/
theorem signedMessage_sound : ∃ sdg c authPara c₁ privPara c₂ user,
    decodeToAuthPara signedMessage.length ⟨signedMessage, 0⟩ = .ok (sdg, c) ∧
      readAuthPara c = .ok (authPara, c₁) ∧ readPrivPara c₁ = .ok (privPara, c₂) ∧
      (snmpMsgAuthen plainCrypto user
        (authenInput sdg authPara privPara c₂.buf user)).authErr = 0 ∧
      CarriesMac plainCrypto user signedMessage authPara c₁.pos := by
  let user : MibUser := ⟨[0x75], ⟨snmpUserAuthMd5, 0, [0x70], []⟩, [], []⟩
  have heval : (decodeToPrivPara signedMessage.length ⟨signedMessage, 0⟩).toOption.map
      (fun r => (r.1.2.1.length, (snmpMsgAuthen plainCrypto user
        (authenInput r.1.1 r.1.2.1 r.1.2.2 r.2.buf user)).authErr)) = some (12, 0) := by
    decide +kernel
  rcases hrun : decodeToPrivPara signedMessage.length ⟨signedMessage, 0⟩ with e | ⟨r, c₂⟩
  · rw [hrun] at heval
    cases heval
  · rw [hrun] at heval
    obtain ⟨hlen, hzero⟩ := Prod.mk.inj (Option.some.inj heval)
    obtain ⟨sdg, c, hbefore, hrest⟩ := bind_eq_ok_iff.mp hrun
    obtain ⟨authPara, c₁, hauth, hrest⟩ := bind_eq_ok_iff.mp hrest
    obtain ⟨privPara, c₃, hpriv, hrest⟩ := bind_eq_ok_iff.mp hrest
    obtain ⟨rfl, rfl⟩ := Prod.mk.inj (Except.ok.inj hrest)
    have hne : authPara ≠ [] := by
      rintro rfl
      cases hlen
    exact ⟨sdg, c, authPara, c₁, privPara, c₃, user, hbefore, hauth, hpriv, hzero,
      (snmpMsgAuthen_sound_iff plainCrypto hbefore hauth hpriv user).mpr (.inl hne) hzero⟩

end SmithSnmp
