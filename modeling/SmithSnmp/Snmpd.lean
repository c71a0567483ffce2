import SmithSnmp.MsgIn
import SmithSnmp.MsgOut

/-!
# The Agent

`core/snmp.c` with `snmp_recv` as a whole: a received message is checked and decoded into the
one global datagram, the request is dispatched, and the response is built in memory that
`malloc` gives and handed to the transport.

The state between two messages is the MIB and the global datagram. The memory of the response
is not cleared, so octets that the encoder does not write hold what was there before, the
`residue`; the MAC is taken over them as well. Octets that are written behind the memory of the
response, or of a value in it, are the end of what is known of the agent.
-/

namespace SmithSnmp

open Lib

variable {σ : Type}

/-- The state of the agent between two messages. -/
structure Snmpd (σ : Type) where
  mib : σ
  /-- the global `snmp_datagram` -/
  datagram : SnmpDatagram := {}

/-- What a message leads to. -/
structure Receipt (σ : Type) where
  agent : Snmpd σ
  /-- calls of handlers and varbinds of the response -/
  events : List Event := []
  /-- the octets that are sent -/
  response : Option (List UInt8) := none

/-- The first `send_len` octets of the buffer, in memory that held `residue`. -/
def SendBuf.octets (residue : List UInt8) (buf : SendBuf) : List UInt8 :=
  peekBytes (pokeBytes residue buf.bytes) buf.sendLen.toNat

/-- `snmp_msg_signature`, with the memory behind the written octets. -/
def signatureOver (residue : List UInt8) (cr : Crypto) (user : MibUser) (buf : SendBuf) :
    SendBuf :=
  let sdg := buf.sdg
  let blank : SendBuf :=
    { buf with sdg := { sdg with authPara := List.replicate sdg.authPara.length 0 } }
  let mac := (userMac cr user (blank.octets residue)).2
  { buf with sdg := { sdg with authPara := peekBytes mac sdg.authPara.length } }

/-- The user for whom a response is signed. -/
def signer (sdg : SnmpDatagram) : Option MibUser :=
  if 3 ≤ sdg.version ∧ sdg.hasFlag snmpSecurFlagAuth = true then sdg.user else none

/-- `snmp_response`, down to the octets that are sent; `none` when more octets are written than
`send_len`. -/
def respond (residue : List UInt8) (cr : Crypto) (rnd : UInt32 × UInt32) (sdg : SnmpDatagram) :
    Option (List UInt8) :=
  (snmpResponse cr rnd sdg).bind fun buf =>
    if buf.sendLen.toNat < buf.bytes.length then none
    else match signer sdg with
      | some user => some ((signatureOver residue cr user buf).octets residue)
      | none => some (buf.octets residue)

/-- The dispatcher and the response, from the decoded datagram on; `none` when the agent comes
to an end. -/
def dispatch (residue : List UInt8) (cr : Crypto) (rnd : UInt32 × UInt32) (ag : Agent σ) (mib : σ)
    (sdg : SnmpDatagram) : Option (Receipt σ) :=
  match snmpRequestDispatch ag sdg ⟨mib, []⟩ with
  | (none, _) => none
  | (some none, w) => some { agent := ⟨w.state, markResponse sdg⟩, events := w.log }
  | (some (some sdg), w) =>
    if sdg.InRoom then
      (respond residue cr rnd sdg).map fun octets =>
        { agent := ⟨w.state, asn1EncodeTry sdg⟩, events := w.log, response := some octets }
    else none

/-- `snmp_datagram_clear` -/
def snmpDatagramClear (_ : SnmpDatagram) : SnmpDatagram := {}

/-- What the checks of `snmp_recv` leave in the global datagram when they fail: the length of
the message is decoded in place. -/
def refused (datagram : SnmpDatagram) (b : List UInt8) (err : SnmpErrCode) : SnmpDatagram :=
  if err = .pduLen then
    { datagram with dataLen := ((berLengthDec (b.drop 1)).map Prod.fst).getD 0 }
  else datagram

/-- `snmpd_receive`: `none` for a failed assertion, for reads outside of the buffer, for a loop
that does not end and for writes to other memory. -/
def snmpdReceive (residue : List UInt8) (cr : Crypto) (rnd : UInt32 × UInt32) (ag : Agent σ)
    (s : Snmpd σ) (b : List UInt8) : Option (Receipt σ) :=
  -- `assert(len > 0)`
  if b = [] then none
  else
    match checkMessage b.length ⟨b, 0⟩ with
    | .error (.error err) => some { agent := { s with datagram := refused s.datagram b err } }
    | .error _ => none
    | .ok (_, c) =>
      match decoded (snmpDecode cr ag.views.users c) with
      | .ok sdg => dispatch residue cr rnd ag s.mib sdg
      -- if the decoding fails, the datagram is cleared once more and still dispatched
      | .error (.error _) =>
        dispatch residue cr rnd ag s.mib (snmpDatagramClear s.datagram)
      | .error _ => none

end SmithSnmp
