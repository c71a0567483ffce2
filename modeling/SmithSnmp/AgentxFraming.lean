import SmithSnmp.AgentxRoundTrip
import SmithSnmp.Lib.Framing
import SmithSnmp.Transport

/-!
# AgentX PDUs over TCP

`agentx_read_handler` receives into a fresh buffer, which is not cleared, and `agentx_recv`
decodes what stands at its start, without a look at the number of octets received. What comes
behind the first PDU of a chunk is dropped, and a PDU that is cut off is completed by whatever
the buffer held.

## Main results

* `XPdu.recv_eq`: a PDU at the start of the buffer is handed to the dispatcher, whatever is
  behind it.
* `agentx_framing_iff`: exactly the PDUs sent are handed to the dispatcher, whatever the
  buffers held, if and only if every `recv` returned one PDU.
-/

namespace SmithSnmp

open List Lib Reader

/-- The length of a PDU according to the header at the start of a buffer. -/
def announcedLen (buf : List UInt8) : ℕ :=
  20 + (axtoh32 (peekWord (buf.drop 16)) (buf.getD 2 0)).toNat

/-- `agentx_recv`: the PDU at the start of the buffer and its datagram, if they are handed to
`agentx_request_dispatch`. -/
def agentxRecv (buf : List UInt8) : Option (List UInt8 × AgentxDatagram) :=
  match agentxDecode ⟨buf, 0⟩ with
  | .ok (xdg, _) => some (buf.take (announcedLen buf), xdg)
  | .error _ => none

/-- Well-formed PDUs: as long as their header says, and decoded without a look at what is
behind them. -/
structure XPdu where
  octets : List UInt8
  /-- what they say -/
  datagram : AgentxDatagram
  sized : octets.length = announcedLen octets
  decodes : Parses agentxDecode octets octets datagram

namespace XPdu

/-- A PDU with its datagram. -/
def message (pdu : XPdu) : List UInt8 × AgentxDatagram := (pdu.octets, pdu.datagram)

/-- The header is part of the PDU. -/
theorem announcedLen_append (pdu : XPdu) (residue : List UInt8) :
    announcedLen (pdu.octets ++ residue) = pdu.octets.length := by
  have hlen : 20 ≤ pdu.octets.length := by
    rw [pdu.sized, announcedLen]
    exact Nat.le_add_right _ _
  rw [announcedLen, drop_append_of_le_length (by omega),
    peekWord_append (by rw [length_drop]; omega), getD_append _ _ _ _ (by omega), pdu.sized]
  rfl

/-- **A PDU at the start of the buffer** is handed to the dispatcher. -/
theorem recv_eq (pdu : XPdu) (residue : List UInt8) :
    agentxRecv (pdu.octets ++ residue) = some pdu.message := by
  have h := pdu.decodes.2 [] residue
  rw [nil_append, length_nil] at h
  rw [agentxRecv, h]
  dsimp only
  rw [pdu.announcedLen_append, take_left]
  rfl

end XPdu

/-- What is handed over stands at the start of the buffer. -/
theorem agentxRecv_isPrefix {buf octets : List UInt8} {xdg : AgentxDatagram}
    (h : agentxRecv buf = some (octets, xdg)) : octets <+: buf := by
  rw [agentxRecv] at h
  split at h
  · cases h
    exact take_prefix _ _
  · cases h

/-- **Framing.** PDUs arrive in chunks of at most `TRANSP_BUF_SIZ - 1` octets. Exactly these
PDUs are handed to the dispatcher, in order and whatever the buffers held, if and only if
every chunk is one of them. -/
theorem agentx_framing_iff (sent : List XPdu) (chunks : List (List UInt8))
    (hchunks : ∀ chunk ∈ chunks, chunk ≠ [] ∧ chunk.length < transpBufSiz)
    (hstream : chunks.flatten = (sent.map XPdu.octets).flatten) :
    (∀ reads, Reads transpBufSiz chunks reads →
        handed agentxRecv reads = sent.map XPdu.message) ↔
      chunks = sent.map XPdu.octets := by
  have hoctets : (sent.map XPdu.message).map Prod.fst = sent.map XPdu.octets := map_map
  constructor
  · intro h
    rw [← hoctets] at hstream ⊢
    exact (map_fst_eq_of_handed (show (0 : UInt8) ≠ 1 by decide)
      (fun _ _ _ hrecv => agentxRecv_isPrefix hrecv) hchunks hstream h).symm
  · rintro rfl reads ⟨hreads, -⟩
    refine handed_eq_of_receives ?_ (hreads.trans hoctets.symm)
    intro m hm residue
    obtain ⟨pdu, -, rfl⟩ := mem_map.mp hm
    exact pdu.recv_eq residue

/-! ### Two PDUs in one chunk -/

/-- The types whose PDUs are a header alone. -/
def isHdrOnly (type : UInt8) : Bool :=
  type ≠ agentxPduClose && type ≠ agentxPduGetbulk && !hasRanges type && !hasVarBinds type

/-- A PDU that is a header alone. -/
theorem agentxDecode_hdr_parses {ph : XPduHdr} (hflags : ph.flags &&& networdByteOrder = 0)
    (hctx : ph.flags &&& nonDefaultContext = 0) (htype : isHdrOnly ph.type) :
    Parses agentxDecode (pduHdrEnc ph) (pduHdrEnc ph) { pduHdr := ph } := by
  simp only [isHdrOnly, hasVarBinds, Bool.and_eq_true, Bool.not_eq_true', Bool.or_eq_false_iff,
    decide_eq_true_eq, decide_eq_false_iff_not] at htype
  obtain ⟨⟨⟨hclose, hbulk⟩, hranges⟩, htestset, hresponse⟩ := htype
  have hitems : Parses (itemsParse { pduHdr := ph }) [] [] { pduHdr := ph } := by
    refine Parses.get_bind fun c _ => ?_
    dsimp only
    rw [if_neg (by simp [hranges]), if_neg (by simp [hasVarBinds, htestset, hresponse])]
    exact Parses.pure _
  have hadditional : Parses (additionalParse { pduHdr := ph }) [] [] { pduHdr := ph } := by
    rw [additionalParse]
    dsimp only
    rw [if_neg hclose, if_neg hbulk, if_neg hresponse]
    exact Parses.pure _
  have hcontext : Parses (contextParse { pduHdr := ph }) [] [] { pduHdr := ph } := by
    rw [contextParse, if_neg (not_not.mpr hctx)]
    exact Parses.pure _
  rw [← append_nil (pduHdrEnc ph)]
  exact (readPduHdr_parses hflags).bind (hcontext.bind_nil (hadditional.bind_nil hitems))

/-- The header of a CommitSet. -/
def commitSetHdr (packetId : UInt32) : XPduHdr where
  version := 1
  type := agentxPduCommitset
  sessionId := 1
  transactionId := 1
  packetId := packetId

/-- A CommitSet of the master. -/
def commitSetPdu (packetId : UInt32) : XPdu where
  octets := pduHdrEnc (commitSetHdr packetId)
  datagram := { pduHdr := commitSetHdr packetId }
  sized := by
    have hlen : peekWord ((pduHdrEnc (commitSetHdr packetId)).drop 16) = 0 := peekWord_leBytes 0
    have hflags : (pduHdrEnc (commitSetHdr packetId)).getD 2 0 = 0 := rfl
    rw [announcedLen, hlen, hflags]
    rfl
  decodes := agentxDecode_hdr_parses (show (0 : UInt8) &&& networdByteOrder = 0 by decide)
    (show (0 : UInt8) &&& nonDefaultContext = 0 by decide) rfl

/-- Two PDUs that arrive in a chunk each, in a buffer of zeros, are handed over. -/
theorem two_chunks_handed :
    handed agentxRecv ([(commitSetPdu 1).octets, (commitSetPdu 2).octets].map
      (padded transpBufSiz 0)) = [(commitSetPdu 1).message, (commitSetPdu 2).message] :=
  have hsize : ∀ chunk ∈ [(commitSetPdu 1).octets, (commitSetPdu 2).octets],
      chunk ≠ [] ∧ chunk.length < transpBufSiz := by
    simp [commitSetPdu, pduHdrEnc, transpBufSiz]
  (agentx_framing_iff [commitSetPdu 1, commitSetPdu 2]
    [(commitSetPdu 1).octets, (commitSetPdu 2).octets] hsize rfl).mpr rfl _
    (reads_padded 0 fun chunk hchunk => (hsize chunk hchunk).2)

/-- **Two PDUs in one chunk**: whatever the buffer held, the second one is lost. -/
theorem two_pdus_one_chunk :
    (∀ residue, handed agentxRecv
        [((commitSetPdu 1).octets ++ (commitSetPdu 2).octets, residue)] =
        [(commitSetPdu 1).message]) ∧
      [(commitSetPdu 1).message] ≠ [(commitSetPdu 1).message, (commitSetPdu 2).message] := by
  constructor
  · intro residue
    rw [handed_cons]
    dsimp only
    rw [append_assoc, XPdu.recv_eq]
    rfl
  · exact fun h => absurd (congrArg List.length h) (by decide)

end SmithSnmp
