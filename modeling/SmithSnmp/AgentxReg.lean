import SmithSnmp.AgentxFraming
import SmithSnmp.AgentxSet
import SmithSnmp.MibNext

/-!
# Registrations with the Master

`agentx_mib_node_reg` sends a Register, blocks until something arrives on the socket and
passes it to `agentx_recv`: it is dispatched like any request. If that could be decoded, the
node is registered. Whether it was a Response, to this Register and without an error, is not
looked at; and so in `agentx_mib_node_unreg`.

## Main results

* `exchange_cases`: the tree is left alone, or something was received and decoded.
* `registrations_agree_iff`: nodes are registered and unregistered only when the master has
  granted it if and only if whatever arrives and can be decoded is the grant.
-/

namespace SmithSnmp

open Lib Reader Traced Option

variable {σ : Type}

/-! ### Register and Unregister -/

/-- `INSTANCE_REGISTRATION` -/
def instanceRegistration : UInt8 := 0x1

/-- `agentx_register_pdu` and `agentx_unregister_pdu`, without a context, a timeout and an
upper bound, for the header of the datagram; `none` is the failed assertion. -/
def regionPdu (type : UInt8) (ph : XPduHdr) (oid : Oid) : Option XPduBuf :=
  if 4 < oid.length ∧ oid.length + 5 ≤ asn1OidMaxLen then
    let len := 20 + 4 + 4 + UInt32.ofNat (oid.length - 5) * 4
    let hdr := { ph with
      type := type
      flags := ph.flags ||| instanceRegistration
      reserved := 0
      packetId := ph.packetId + 1
      payloadLength := len - 20 }
    some { buf := pduHdrEnc hdr ++ [0, 127, 0, 0] ++ objidEnc oid, len := len }
  else none

/-- `agentx_register_pdu` -/
def agentxRegisterPdu (ph : XPduHdr) (oid : Oid) : Option XPduBuf :=
  regionPdu agentxPduReg ph oid

/-- `agentx_unregister_pdu` -/
def agentxUnregisterPdu (ph : XPduHdr) (oid : Oid) : Option XPduBuf :=
  regionPdu agentxPduUnreg ph oid

/-- What `send` and `recv` return. -/
inductive RecvResult where
  /-- an error of `send`, after which nothing is received -/
  | unsent
  /-- an error of `recv` -/
  | failed
  /-- the end of the stream -/
  | closed
  /-- some octets; the buffer with what is behind them -/
  | data (buf : List UInt8)

/-- The datagram that is dispatched from what `recv` returned. -/
def RecvResult.datagram : RecvResult → Option AgentxDatagram
  | .data buf => (agentxRecv buf).map Prod.snd
  | _ => none

/-- The OID prefix that is checked. -/
def hasPrefix1361 (oid : Oid) : Bool :=
  4 ≤ oid.length && oid.take 4 = agentxDummyView

/-- The common part of `agentx_mib_node_reg` and `agentx_mib_node_unreg`: the region is sent to
the master, and what comes back is received. Afterwards `commit` gives the return code and the
tree. `none` is the end of the program. -/
def exchange (h : Handlers σ) (mib : σ) (root : MibNode) (oid : Oid) (pdu : Option XPduBuf)
    (received : RecvResult) (commit : Int × MibNode) : Option (Int × MibNode) :=
  if hasPrefix1361 oid then
    pdu.bind fun _ =>
      match received with
      | .unsent => some (-1, root)
      | .failed => some (-1, root)
      | .closed => none
      | .data buf =>
        match agentxRecv buf with
        | none => some (-1, root)
        | some (_, xdg) => (agentxRequestDispatch h root xdg ⟨mib, []⟩).1.map fun _ => commit
  else some (-1, root)

/-- `agentx_mib_node_reg`, the header of the datagram being `ph`: the return code and the
tree. -/
def agentxMibNodeReg (h : Handlers σ) (mib : σ) (ph : XPduHdr) (root : MibNode) (oid : Oid)
    (callback : Int) (received : RecvResult) : Option (Int × MibNode) :=
  exchange h mib root oid (agentxRegisterPdu ph oid) received (mibNodeReg root oid callback)

/-- `agentx_mib_node_unreg` -/
def agentxMibNodeUnreg (h : Handlers σ) (mib : σ) (ph : XPduHdr) (root : MibNode) (oid : Oid)
    (received : RecvResult) : Option (Int × MibNode) :=
  exchange h mib root oid (agentxUnregisterPdu ph oid) received (0, mibNodeUnreg root oid)

/-! ### Grants -/

/-- A Response of the master to the PDU of the given packet, without an error. -/
def IsGrant (packetId : UInt32) (xdg : AgentxDatagram) : Prop :=
  xdg.pduHdr.type = agentxPduResponse ∧ xdg.pduHdr.packetId = packetId ∧ xdg.error = 0

/-- What was received is such a Response. -/
def Granted (packetId : UInt32) (received : RecvResult) : Prop :=
  ∃ xdg, received.datagram = some xdg ∧ IsGrant packetId xdg

/-- Sub-agent and master agree when `received` arrives after a Register or an Unregister: a
node is registered, or removed, only if that is the grant. -/
def RegistrationsAgree (ph : XPduHdr) (received : RecvResult) : Prop :=
  ∀ (σ : Type) (h : Handlers σ) (mib : σ) (root : MibNode) (oid : Oid) (ret : Int)
    (root' : MibNode), root.Reachable →
    (∀ callback, agentxMibNodeReg h mib ph root oid callback received = some (ret, root') →
      ret = 0 ∨ root' ≠ root → Granted (ph.packetId + 1) received) ∧
    (agentxMibNodeUnreg h mib ph root oid received = some (ret, root') →
      root' ≠ root → Granted (ph.packetId + 1) received)

/-- Either nothing happens, or something was received and decoded. -/
theorem exchange_cases {h : Handlers σ} {mib : σ} {root : MibNode} {oid : Oid}
    {pdu : Option XPduBuf} {received : RecvResult} {commit r : Int × MibNode}
    (hr : exchange h mib root oid pdu received commit = some r) :
    r = (-1, root) ∨ ∃ xdg, received.datagram = some xdg := by
  simp only [exchange] at hr
  split at hr
  · obtain ⟨-, -, hr⟩ := bind_eq_some_iff.mp hr
    cases received with
    | unsent | failed => exact .inl (some.inj hr).symm
    | closed => cases hr
    | data buf =>
      rw [RecvResult.datagram]
      rcases hrecv : agentxRecv buf with _ | ⟨octets, xdg⟩
      · simp only [hrecv] at hr
        exact .inl (some.inj hr).symm
      · exact .inr ⟨xdg, rfl⟩
  · exact .inl (some.inj hr).symm

/-- What was received is dispatched, and the change is made. -/
theorem exchange_eq {h : Handlers σ} {mib : σ} {root : MibNode} {oid : Oid} {pdu : XPduBuf}
    {received : RecvResult} {commit : Int × MibNode} (hoid : hasPrefix1361 oid)
    {xdg : AgentxDatagram} (hxdg : received.datagram = some xdg)
    (hdispatch : Moves (agentxRequestDispatch h root xdg) Eq) :
    exchange h mib root oid (some pdu) received commit = some commit := by
  cases received with
  | unsent | failed | closed => cases hxdg
  | data buf =>
    obtain ⟨⟨octets, xdg'⟩, hrecv, rfl⟩ := map_eq_some_iff.mp hxdg
    obtain ⟨a, w, hrun, -⟩ := hdispatch ⟨mib, []⟩
    simp only [exchange, if_pos hoid, bind_some, hrecv]
    rw [hrun]
    rfl

/-! ### Dispatching in an empty tree -/

section Empty

variable (h : Handlers σ)

theorem reachesInstance_empty (oid : Oid) : reachesInstance (.group []) oid = false := by
  cases oid with
  | nil => rfl
  | cons x oid => simp [reachesInstance, mibTreeWalk, subIds, oidBinarySearch]

theorem mibTreeSearchNext_empty_moves (orig : Oid) (ret : OidSearchRes) :
    Moves (mibTreeSearchNext h (.group []) agentxDummyView orig ret) Eq := by
  have hqueries : nextQueries (.group []) agentxDummyView orig = [] := by
    simp [nextQueries, mibTreeWalk, agentxDummyView, subIds, oidBinarySearch, queries, registered,
      registeredSubs]
  rw [mibTreeSearchNext_eq h MibNode.Reachable.init.wf, hqueries]
  split
  · refine Moves.bind (S := Eq) (T := Eq) ?_ (fun _ => Moves.pure fun _ => rfl) fun s t u => Eq.trans
    exact Moves.bind (mibTreeSearch_moves_eq h _ (reachesInstance_empty _) _)
      (fun _ => Moves.pure (S := Eq) fun _ => rfl) fun s t u => Eq.trans
  · exact Moves.pure fun _ => rfl

/-- The ranges of a request are processed to the end when each of them is. -/
theorem xReadLoop_moves {find : XSearchRange → OidSearchRes → AgentM σ OidSearchRes}
    (hfind : ∀ sr ret, Moves (find sr ret) Eq) (srs : List XSearchRange) (cnt : UInt32)
    (xdg : AgentxDatagram) (ret : OidSearchRes) : Moves (xReadLoop find srs cnt xdg ret) Eq := by
  induction srs generalizing cnt xdg ret with
  | nil => exact Moves.pure fun _ => rfl
  | cons sr srs ih => exact (hfind sr ret).bind (fun _ => ih _ _ _) fun s t u => Eq.trans

theorem agentxRequestDispatch_empty_moves (xdg : AgentxDatagram) :
    Moves (agentxRequestDispatch h (.group []) xdg) Eq := by
  have hsearch := fun oid => mibTreeSearch_moves_eq h (.group []) (reachesInstance_empty oid)
  have hnext : ∀ sr ret, Moves (xMibSearchNext h (.group []) sr ret) Eq := fun sr ret =>
    (mibTreeSearchNext_empty_moves h sr.start ret).bind
      (fun _ => by split <;> exact Moves.pure fun _ => rfl) fun s t u => Eq.trans
  rw [agentxRequestDispatch]
  split
  · exact (xReadLoop_moves (fun sr ret => (hsearch sr.start ret).map) _ _ _ _).map
  · split
    · refine (xReadLoop_moves (fun sr ret => ?_) _ _ _ _).map
      rw [xMibGetnext]
      split
      · refine (hsearch sr.start ret).map.bind (fun ret' => ?_) fun s t u => Eq.trans
        split
        · exact hnext sr ret'
        · exact Moves.pure fun _ => rfl
      · exact hnext sr ret
    · split
      · exact (agentxSetLoop_moves_eq h _ (fun vb _ => reachesInstance_empty vb.oid) _ _ _).map
      · split
        · exact Moves.pure fun _ => rfl
        · exact Moves.pure fun _ => rfl

end Empty

/-! ### Agreement -/

/-- **Sub-agent and master agree** on registrations if and only if whatever arrives while a
Register or Unregister waits for its answer and can be decoded is the grant. -/
theorem registrations_agree_iff (ph : XPduHdr) (received : RecvResult) :
    RegistrationsAgree ph received ↔
      ∀ xdg, received.datagram = some xdg → IsGrant (ph.packetId + 1) xdg := by
  constructor
  · intro hagree xdg hxdg
    -- register a first node, in an empty tree
    have hreg : agentxMibNodeReg ⟨fun _ _ _ _ s => (.fail, s)⟩ () ph (.group []) [1, 3, 6, 1, 1] 1
        received = some (mibNodeReg (.group []) [1, 3, 6, 1, 1] 1) :=
      exchange_eq rfl hxdg (agentxRequestDispatch_empty_moves _ xdg)
    obtain ⟨xdg', hxdg', hgrant⟩ := (hagree _ _ _ _ _ _ _ .init).1 1 hreg (.inl (by decide +kernel))
    rw [hxdg] at hxdg'
    rwa [some.inj hxdg']
  · intro hgrant σ h mib root oid ret root' _
    have heffect : ∀ {pdu commit}, exchange h mib root oid pdu received commit = some (ret, root') →
        ret = 0 ∨ root' ≠ root → Granted (ph.packetId + 1) received := by
      intro pdu commit hr heffect
      obtain hnone | ⟨xdg, hxdg⟩ := exchange_cases hr
      · obtain ⟨rfl, rfl⟩ := Prod.mk.inj hnone
        obtain hret | hroot := heffect
        · exact absurd hret (by decide)
        · exact absurd rfl hroot
      · exact ⟨xdg, hxdg, hgrant xdg hxdg⟩
    exact ⟨fun callback hr => heffect hr, fun hr hroot => heffect hr (.inr hroot)⟩

/-- The answer of a master that refuses the Register of packet 2, as a duplicate. -/
def refusal : AgentxDatagram where
  pduHdr := { version := 1, sessionId := 1, packetId := 2 }
  error := 0x107

/-- What is decoded from a Response, whatever is behind it in the buffer. -/
theorem datagram_response (xdg : AgentxDatagram)
    (hflags : xdg.pduHdr.flags &&& networdByteOrder = 0)
    (hctx : xdg.pduHdr.flags &&& nonDefaultContext = 0)
    (hvbs : ∀ vb ∈ xdg.vbOutList, vb.Outgoing) (hsize : xResponseSize xdg.vbOutList < 2 ^ 32)
    (residue : List UInt8) :
    (RecvResult.data ((agentxResponsePdu xdg).buf ++ residue)).datagram =
      some (responseReceived xdg) := by
  have h := (agentxDecode_parses hflags hctx hvbs hsize).2 [] residue
  rw [List.nil_append, List.length_nil] at h
  rw [RecvResult.datagram, agentxRecv, h]
  rfl

/-- **A refused registration** is made all the same. -/
theorem refusal_registers :
    agentxMibNodeReg ⟨fun _ _ _ _ s => (.fail, s)⟩ () { version := 1, packetId := 1 }
        (.group []) [1, 3, 6, 1, 2, 1, 1] 1 (.data (agentxResponsePdu refusal).buf) =
          some (0, (mibNodeReg (.group []) [1, 3, 6, 1, 2, 1, 1] 1).2) ∧
      ¬Granted 2 (.data (agentxResponsePdu refusal).buf) := by
  have hxdg := datagram_response refusal (by decide) (by decide)
    (fun vb hvb => absurd hvb List.not_mem_nil) (by decide) []
  rw [List.append_nil] at hxdg
  constructor
  · exact exchange_eq rfl hxdg (agentxRequestDispatch_empty_moves _ _)
  · rintro ⟨xdg, hxdg', -, -, herror⟩
    rw [hxdg] at hxdg'
    obtain rfl := some.inj hxdg'
    exact absurd herror (by decide)

end SmithSnmp
