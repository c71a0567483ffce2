import Mathlib.Data.Finset.Basic
import SmithSnmp.Lib.Runs
import SmithSnmp.Snmpd
import SmithSnmp.WellFormed

/-!
# The UDP Transport

`core/snmp_udp_transport.c` on the select loop of `core/event_loop.c` and
`core/event_select.h`. Datagrams wait in the queue of the socket; a poll round marks the slots
whose descriptors are ready and calls their handlers, for every slot the read handler before
the write handler. The read handler overwrites the one client address with every datagram it
takes, and a response is put into the one buffer and sent when the socket is found writable
in a later round. An interrupt closes the transport.

What is received is handed to `receive`, an arbitrary function of the state of the agent,
which yields a response or none, or brings the agent to an end. What the system calls of a round
find is an input: whether the socket is writable, whether `sendto` and `recvfrom` fail, and which
signal there is. The loop is done after a failure, an interrupt and the end of the agent, and no
handler is called any more. Two lists of the state are ghosts: the responses that were built, with
the client whose datagram each one answers, and the ones that were sent, with the address they
were sent to.

The probing of traps is left out.

## Main results

* `snmpEventPoll_eq`: what a poll round does.
* `udp_delivery_iff`: when every response is sent once and to its client.
-/

namespace SmithSnmp

open List Lib

/-! ### The event loop -/

/-- `SNMP_MAX_EVENTS` -/
def snmpMaxEvents : ℕ := 5
/-- `SNMP_EV_NONE` -/
def snmpEvNone : UInt8 := 0
/-- `SNMP_EV_READ` -/
def snmpEvRead : UInt8 := 1
/-- `SNMP_EV_WRITE` -/
def snmpEvWrite : UInt8 := 2

/-- The handlers of the transport. -/
inductive Handler where
  | snmpRead
  | snmpWrite
  | snmpSignal
deriving DecidableEq, Repr

/-- `struct snmp_event`; `none` is the descriptor -1. -/
structure SnmpEvent where
  fd : Option ℕ := none
  rcb : Option Handler := none
  wcb : Option Handler := none
  /-- what is waited for -/
  flag : UInt8 := snmpEvNone
  read : Bool := false
  write : Bool := false

/-- `struct snmp_event_loop` with the descriptor sets of `struct select_env`. -/
structure EventLoop where
  event : List SnmpEvent
  /-- descriptors watched for reading -/
  rfds : Finset ℕ := ∅
  /-- descriptors watched for writing -/
  wfds : Finset ℕ := ∅
  maxFd : Int := -1
  /-- whether the loop goes on -/
  running : Bool := true

/-- `snmp_event_init` -/
def snmpEventInit : EventLoop := { event := List.replicate snmpMaxEvents {} }

/-- `snmp_event_done`; the descriptor sets stay as they are. -/
def snmpEventDone (loop : EventLoop) : EventLoop :=
  { loop with
    event := loop.event.map
      ({ · with fd := none, flag := snmpEvNone, read := false, write := false })
    maxFd := -1
    running := false }

/-- A bit of a flag is set. -/
def hasBit (flag bit : UInt8) : Bool := flag &&& bit ≠ 0

/-- The slot of `snmp_event_add` with its new flag and callbacks. -/
def SnmpEvent.add (ev : SnmpEvent) (flag : UInt8) (cb : Handler) : SnmpEvent :=
  { ev with
    rcb := if hasBit flag snmpEvRead then some cb else ev.rcb
    wcb := if hasBit flag snmpEvWrite then some cb else ev.wcb }

/-- The slots of `snmp_event_add`: the slot of the descriptor or the first free one. -/
def addSlot (fd : ℕ) (flag : UInt8) (cb : Handler) : List SnmpEvent → List SnmpEvent
  | [] => []
  | ev :: evs =>
    if ev.fd = some fd then { ev with flag := ev.flag ||| flag }.add flag cb :: evs
    else if ev.fd = none then { ev with fd := some fd, flag := flag }.add flag cb :: evs
    else ev :: addSlot fd flag cb evs

/-- Whether `snmp_event_add` takes a free slot. -/
def takesFree (fd : ℕ) : List SnmpEvent → Bool
  | [] => false
  | ev :: evs =>
    if ev.fd = some fd then false else if ev.fd = none then true else takesFree fd evs

/-- `snmp_event_add` -/
def snmpEventAdd (loop : EventLoop) (fd : ℕ) (flag : UInt8) (cb : Handler) : EventLoop :=
  let found := loop.event.any fun ev => ev.fd = some fd || ev.fd = none
  { loop with
    event := addSlot fd flag cb loop.event
    rfds := if found && hasBit flag snmpEvRead then insert fd loop.rfds else loop.rfds
    wfds := if found && hasBit flag snmpEvWrite then insert fd loop.wfds else loop.wfds
    maxFd := if takesFree fd loop.event then max loop.maxFd fd else loop.maxFd }

/-- The slot of `snmp_event_remove`. -/
def SnmpEvent.remove (ev : SnmpEvent) (fd : ℕ) (flag : UInt8) : SnmpEvent :=
  if ev.fd = some fd then
    { ev with
      flag := ev.flag &&& ~~~flag
      read := if hasBit flag snmpEvRead then false else ev.read
      write := if hasBit flag snmpEvWrite then false else ev.write
      fd := if ev.flag &&& ~~~flag = snmpEvNone then none else ev.fd }
  else ev

/-- `snmp_event_remove` -/
def snmpEventRemove (loop : EventLoop) (fd : ℕ) (flag : UInt8) : EventLoop :=
  let found := loop.event.any (·.fd = some fd)
  { loop with
    event := loop.event.map (·.remove fd flag)
    rfds := if found && hasBit flag snmpEvRead then loop.rfds.erase fd else loop.rfds
    wfds := if found && hasBit flag snmpEvWrite then loop.wfds.erase fd else loop.wfds
    -- the greatest descriptor is the removed one again, or it was not the removed one
    maxFd := if (fd : Int) = loop.maxFd then fd else max loop.maxFd fd }

/-- `__ev_poll` on descriptors that are ready for reading and for writing. -/
def evPoll (loop : EventLoop) (readable writable : ℕ → Bool) : EventLoop :=
  { loop with
    event := loop.event.map fun ev =>
      match ev.fd with
      | none => ev
      | some fd =>
        let watched := decide ((fd : Int) ≤ loop.maxFd)
        { ev with
          read := ev.read ||
            (hasBit ev.flag snmpEvRead && watched && decide (fd ∈ loop.rfds) && readable fd)
          write := ev.write ||
            (hasBit ev.flag snmpEvWrite && watched && decide (fd ∈ loop.wfds) && writable fd) } }

/-! ### The transport -/

/-- The descriptors `sock` and `sigfd` of `struct snmp_data_entry`. -/
structure Descriptors where
  sock : ℕ
  sigfd : ℕ
  /-- they are not the same -/
  distinct : sigfd ≠ sock

/-- `SIGINT` -/
def sigint : ℕ := 2

/-- What the system calls of a poll round find. -/
structure Kernel where
  /-- the socket is writable -/
  writable : Bool := true
  /-- `sendto` does not fail -/
  sendto : Bool := true
  /-- `recvfrom` does not fail -/
  recvfrom : Bool := true
  /-- the signal that is there to be read -/
  signal : Option ℕ := none

section Transport

variable {S A : Type}

/-- `struct snmp_data_entry`, the queue of the socket, the agent and the ghosts. -/
structure Transport (S A : Type) where
  loop : EventLoop
  /-- `client_sin` -/
  client : Option A := none
  /-- `buf` and `len` -/
  buf : List UInt8 := []
  /-- datagrams that have arrived -/
  queue : List (A × List UInt8) := []
  agent : S
  /-- ghost: responses with the client whose datagram they answer -/
  built : List (Option A × List UInt8) := []
  /-- ghost: what was sent, with its address -/
  sent : List (Option A × List UInt8) := []

/-- `TRANSP_BUF_SIZ` -/
def transpBufSiz : ℕ := 65536

variable (fds : Descriptors) (receive : S → List UInt8 → Option (S × Option (List UInt8)))
  (kernel : Kernel)

/-- `transport_send` -/
def transportSend (response : List UInt8) (s : Transport S A) : Transport S A :=
  { s with buf := response, loop := snmpEventAdd s.loop fds.sock snmpEvWrite .snmpWrite }

/-- `transport_close` -/
def transportClose (s : Transport S A) : Transport S A := { s with loop := snmpEventDone s.loop }

/-- `snmp_signal_handler` -/
def snmpSignalHandler (s : Transport S A) : Transport S A :=
  if kernel.signal = some sigint then transportClose s else s

/-- `snmp_write_handler`: what cannot be sent is dropped, and the loop is done. -/
def snmpWriteHandler (s : Transport S A) : Transport S A :=
  let s := if kernel.sendto then { s with sent := s.sent ++ [(s.client, s.buf)] }
    else { s with loop := snmpEventDone s.loop }
  { s with loop := snmpEventRemove s.loop fds.sock snmpEvWrite }

/-- `snmp_read_handler` -/
def snmpReadHandler (s : Transport S A) : Transport S A :=
  -- the length -1 ends the agent in `snmp_recv`
  if !kernel.recvfrom then { s with loop := snmpEventDone s.loop }
  else match s.queue with
    | [] => s
    | (a, b) :: queue =>
      -- the address of the sender is stored whatever becomes of the datagram
      let s := { s with queue := queue, client := some a }
      match receive s.agent (b.take transpBufSiz) with
      | none => { s with loop := snmpEventDone s.loop }
      | some (agent, none) => { s with agent := agent }
      | some (agent, some r) =>
        transportSend fds r { s with agent := agent, built := s.built ++ [(some a, r)] }

/-- The call of a handler. -/
def Handler.call : Handler → Transport S A → Transport S A
  | .snmpRead => snmpReadHandler fds receive kernel
  | .snmpWrite => snmpWriteHandler fds kernel
  | .snmpSignal => snmpSignalHandler kernel

/-- Change a slot. -/
def EventLoop.modify (loop : EventLoop) (i : ℕ) (f : SnmpEvent → SnmpEvent) : EventLoop :=
  { loop with event := loop.event.modify i f }

/-- The read callback of a slot that was found readable. -/
def pollRead (i : ℕ) (s : Transport S A) : Transport S A :=
  match s.loop.event[i]? with
  | some { read := true, rcb := some cb, .. } =>
    let s := cb.call fds receive kernel s
    { s with loop := s.loop.modify i ({ · with read := false }) }
  | _ => s

/-- The write callback of a slot that was found writable. -/
def pollWrite (i : ℕ) (s : Transport S A) : Transport S A :=
  match s.loop.event[i]? with
  | some { write := true, wcb := some cb, .. } =>
    let s := cb.call fds receive kernel s
    { s with loop := s.loop.modify i ({ · with write := false }) }
  | _ => s

/-- The loop of `snmp_event_poll` over the slots. -/
def pollSlots : List ℕ → Transport S A → Transport S A
  | [], s => s
  | i :: is, s =>
    pollSlots is (pollWrite fds receive kernel i (pollRead fds receive kernel i s))

/-- `snmp_event_poll`; the socket is readable when a datagram waits or `recvfrom` fails. -/
def snmpEventPoll (s : Transport S A) : Transport S A :=
  pollSlots fds receive kernel (List.range snmpMaxEvents)
    { s with
      loop := evPoll s.loop
        (fun fd => if fd = fds.sock then !s.queue.isEmpty || !kernel.recvfrom
          else fd = fds.sigfd && kernel.signal.isSome)
        (fun fd => fd = fds.sock && kernel.writable) }

/-- What happens: a datagram arrives, or there is a poll round. -/
inductive UdpInput (A : Type) where
  | arrive (client : A) (octets : List UInt8)
  | poll (kernel : Kernel)

/-- One step of the transport; `snmp_event_run` polls as long as the loop goes on. -/
def udpStep (s : Transport S A) : UdpInput A → Transport S A
  | .arrive a b => { s with queue := s.queue ++ [(a, b)] }
  | .poll kernel => if s.loop.running then snmpEventPoll fds receive kernel s else s

/-- The start of `transport_running`. -/
def udpInit (agent : S) : Transport S A :=
  { loop := snmpEventAdd (snmpEventAdd snmpEventInit fds.sock snmpEvRead .snmpRead)
      fds.sigfd snmpEvRead .snmpSignal
    agent := agent }

/-- A response waits to be sent: the socket is watched for writing. -/
def Transport.pending (s : Transport S A) : Bool :=
  s.loop.event.any fun ev => ev.fd = some fds.sock && hasBit ev.flag snmpEvWrite

/-- What is going to be sent, and to whom. -/
def Transport.waiting (s : Transport S A) : List (Option A × List UInt8) :=
  if s.pending fds then [(s.client, s.buf)] else []

end Transport

/-! ### Poll rounds -/

section Rounds

variable {S A : Type} (fds : Descriptors)
  (receive : S → List UInt8 → Option (S × Option (List UInt8))) (kernel : Kernel)
  {s : Transport S A} {wcb : Option Handler} {waiting write : Bool}

/-- The event loop with the marks of a round: the socket is watched for reading, and for writing
while a response waits, and the signals are watched. -/
def markedLoop (wcb : Option Handler) (waiting read write signal : Bool) : EventLoop where
  event :=
    { fd := some fds.sock, rcb := some .snmpRead, wcb := wcb
      flag := if waiting then snmpEvRead ||| snmpEvWrite else snmpEvRead
      read := read, write := write } ::
    { fd := some fds.sigfd, rcb := some .snmpSignal, flag := snmpEvRead, read := signal } ::
      List.replicate 3 {}
  rfds := {fds.sigfd, fds.sock}
  wfds := if waiting then {fds.sock} else ∅
  maxFd := max fds.sock fds.sigfd

/-- The event loop as the transport leaves it between two rounds. -/
def loopOf (wcb : Option Handler) (waiting : Bool) : EventLoop :=
  markedLoop fds wcb waiting false false false

/-- What a round does behind the read callback, in terms of loops without marks: a response is
sent if `write` says so, and a signal is taken as long as the loop goes on. -/
def afterRead (write : Bool) (s : Transport S A) : Transport S A :=
  let s := if write && s.loop.running then snmpWriteHandler fds kernel s else s
  if s.loop.running then snmpSignalHandler kernel s else s

/-- What a round does to a loop without marks: it reads a datagram, and then sends the buffer if a
response was waiting before and the socket is writable. -/
def pollRound (s : Transport S A) : Transport S A :=
  afterRead fds kernel (s.pending fds && kernel.writable) (snmpReadHandler fds receive kernel s)

variable {receive kernel}

@[simp] theorem hasBit_read : hasBit snmpEvRead snmpEvRead = true := rfl
@[simp] theorem hasBit_read_write : hasBit snmpEvRead snmpEvWrite = false := rfl
@[simp] theorem hasBit_write_read : hasBit snmpEvWrite snmpEvRead = false := rfl
@[simp] theorem hasBit_write : hasBit snmpEvWrite snmpEvWrite = true := rfl
@[simp] theorem hasBit_both_read : hasBit (snmpEvRead ||| snmpEvWrite) snmpEvRead = true := rfl
@[simp] theorem hasBit_both_write : hasBit (snmpEvRead ||| snmpEvWrite) snmpEvWrite = true := rfl

theorem udpInit_loop (agent : S) :
    (udpInit fds agent : Transport S A).loop = loopOf fds none false := by
  have hne := fds.distinct.symm
  simp [udpInit, snmpEventAdd, snmpEventInit, addSlot, takesFree, SnmpEvent.add, loopOf, markedLoop,
    snmpMaxEvents, List.replicate, hne]

theorem snmpEventAdd_markedLoop (wcb : Option Handler) (waiting read write signal : Bool) :
    snmpEventAdd (markedLoop fds wcb waiting read write signal) fds.sock snmpEvWrite .snmpWrite =
      markedLoop fds (some .snmpWrite) true read write signal := by
  have hor : snmpEvRead ||| snmpEvWrite ||| snmpEvWrite = snmpEvRead ||| snmpEvWrite := rfl
  cases waiting <;> simp [snmpEventAdd, addSlot, takesFree, SnmpEvent.add, markedLoop, hor]

/-- After a response is sent, the loop waits for it no longer. -/
theorem snmpEventRemove_markedLoop (wcb : Option Handler) (read write signal : Bool) :
    snmpEventRemove (markedLoop fds wcb true read write signal) fds.sock snmpEvWrite =
      markedLoop fds wcb false read false signal := by
  have hand : (snmpEvRead ||| snmpEvWrite) &&& ~~~snmpEvWrite = snmpEvRead := rfl
  have hne : snmpEvRead ≠ snmpEvNone := by decide
  simp [snmpEventRemove, SnmpEvent.remove, markedLoop, hand, hne, List.replicate, fds.distinct]

variable {fds}

theorem evPoll_loopOf (wcb : Option Handler) (waiting : Bool) (readable writable : ℕ → Bool) :
    evPoll (loopOf fds wcb waiting) readable writable =
      markedLoop fds wcb waiting (readable fds.sock) (waiting && writable fds.sock)
        (readable fds.sigfd) := by
  cases waiting <;> simp [evPoll, loopOf, markedLoop, List.replicate]

/-- No slot is marked. -/
def Unmarked (loop : EventLoop) : Prop := ∀ ev ∈ loop.event, ev.read = false ∧ ev.write = false

theorem unmarked_loopOf (wcb : Option Handler) (waiting : Bool) :
    Unmarked (loopOf fds wcb waiting) := by
  simp [Unmarked, loopOf, markedLoop, List.replicate]

/-- The loop goes on no longer, and watches nothing. -/
structure Ended (loop : EventLoop) : Prop where
  stopped : loop.running = false
  free : ∀ ev ∈ loop.event, ev.fd = none
  unmarked : Unmarked loop

theorem ended_snmpEventDone (loop : EventLoop) : Ended (snmpEventDone loop) := by
  refine ⟨rfl, fun ev hev => ?_, fun ev hev => ?_⟩
  all_goals
    obtain ⟨ev', -, rfl⟩ := mem_map.mp hev
  · rfl
  · exact ⟨rfl, rfl⟩

/-- Removing the socket leaves such a loop as it is, but for `max_fd`. -/
theorem Ended.remove {loop : EventLoop} (h : Ended loop) (fd : ℕ) (flag : UInt8) :
    Ended (snmpEventRemove loop fd flag) := by
  have hsame : ∀ ev ∈ loop.event, ev.remove fd flag = ev := by
    intro ev hev
    simp [SnmpEvent.remove, h.free ev hev]
  have hslots : (snmpEventRemove loop fd flag).event = loop.event :=
    (map_congr_left hsame).trans (map_id' _)
  refine ⟨h.stopped, ?_, ?_⟩
  · rw [hslots]
    exact h.free
  · rw [Unmarked, hslots]
    exact h.unmarked

/-- Nothing waits to be sent any more. -/
theorem Ended.pending (h : Ended s.loop) : s.pending fds = false := by
  rw [Transport.pending, any_eq_false]
  intro ev hev
  simp [h.free ev hev]

theorem pollRead_unmarked (h : Unmarked s.loop) (i : ℕ) : pollRead fds receive kernel i s = s := by
  rw [pollRead]
  split
  · next hev => cases (h _ (mem_of_getElem? hev)).1
  · rfl

theorem pollWrite_unmarked (h : Unmarked s.loop) (i : ℕ) :
    pollWrite fds receive kernel i s = s := by
  rw [pollWrite]
  split
  · next hev => cases (h _ (mem_of_getElem? hev)).2
  · rfl

/-- A round does nothing without marks. -/
theorem pollSlots_unmarked (h : Unmarked s.loop) (is : List ℕ) :
    pollSlots fds receive kernel is s = s := by
  induction is with
  | nil => rfl
  | cons i is ih =>
    rw [pollSlots, pollRead_unmarked h, pollWrite_unmarked h,
      ih]

theorem unmarked_snmpSignalHandler (h : Unmarked s.loop) :
    Unmarked (snmpSignalHandler kernel s).loop := by
  rw [snmpSignalHandler]
  split
  · exact (ended_snmpEventDone _).unmarked
  · exact h

theorem pollRead_signal (h : s.loop = markedLoop fds wcb waiting false false kernel.signal.isSome) :
    pollRead fds receive kernel 1 s =
      snmpSignalHandler kernel { s with loop := loopOf fds wcb waiting } := by
  obtain ⟨loop, client, buf, queue, agent, built, sent⟩ := s
  dsimp only at h
  subst h
  cases hsig : kernel.signal with
  | none =>
    rw [snmpSignalHandler, hsig, if_neg (by simp)]
    exact pollRead_unmarked (unmarked_loopOf wcb waiting) 1
  | some signo =>
    by_cases hint : signo = sigint
    · simp [pollRead, markedLoop, Handler.call, snmpSignalHandler, hsig, hint, transportClose,
        snmpEventDone, EventLoop.modify, loopOf, List.replicate]
    · simp [pollRead, markedLoop, Handler.call, snmpSignalHandler, hsig, hint, EventLoop.modify,
        loopOf]

/-- The slots behind the one of the socket. -/
theorem pollSlots_signal
    (h : s.loop = markedLoop fds wcb waiting false false kernel.signal.isSome) :
    pollSlots fds receive kernel [1, 2, 3, 4] s =
      snmpSignalHandler kernel { s with loop := loopOf fds wcb waiting } := by
  have hunmarked : Unmarked (snmpSignalHandler kernel
      { s with loop := loopOf fds wcb waiting }).loop :=
    unmarked_snmpSignalHandler (unmarked_loopOf wcb waiting)
  rw [pollSlots, pollRead_signal h, pollWrite_unmarked hunmarked,
    pollSlots_unmarked hunmarked]

/-- The write callback of the socket: with the response it sends, or the loop that is done. -/
theorem pollWrite_socket {signal : Bool}
    (h : s.loop = markedLoop fds (some .snmpWrite) true false true signal) :
    pollWrite fds receive kernel 0 s =
      if kernel.sendto then { s with
        sent := s.sent ++ [(s.client, s.buf)]
        loop := markedLoop fds (some .snmpWrite) false false false signal }
      else snmpWriteHandler fds kernel { s with loop := loopOf fds (some .snmpWrite) true } := by
  obtain ⟨loop, client, buf, queue, agent, built, sent⟩ := s
  dsimp only at h
  subst h
  have hremove := snmpEventRemove_markedLoop fds (some .snmpWrite) false true signal
  have hcall : pollWrite fds receive kernel 0 (⟨markedLoop fds (some .snmpWrite) true false true
      signal, client, buf, queue, agent, built, sent⟩ : Transport S A) =
        let s := snmpWriteHandler fds kernel ⟨markedLoop fds (some .snmpWrite) true false true
          signal, client, buf, queue, agent, built, sent⟩
        { s with loop := s.loop.modify 0 ({ · with write := false }) } := rfl
  rw [hcall]
  cases hsend : kernel.sendto with
  | true =>
    simp only [snmpWriteHandler, hsend, if_true, hremove]
    rfl
  | false =>
    simp [snmpWriteHandler, hsend, snmpEventDone, snmpEventRemove, SnmpEvent.remove,
      EventLoop.modify, markedLoop, loopOf]

/-- Sending what waits. -/
theorem snmpWriteHandler_sent (h : s.loop = loopOf fds wcb true) (hsend : kernel.sendto = true) :
    snmpWriteHandler fds kernel s =
      { s with sent := s.sent ++ [(s.client, s.buf)], loop := loopOf fds wcb false } := by
  have hremove := snmpEventRemove_markedLoop fds wcb false false false
  simp [snmpWriteHandler, hsend, h, loopOf, hremove]

/-- The loop is done when `sendto` fails. -/
theorem ended_snmpWriteHandler (fds : Descriptors) (hsend : kernel.sendto = false)
    (s : Transport S A) : Ended (snmpWriteHandler fds kernel s).loop := by
  have hloop : (snmpWriteHandler fds kernel s).loop =
      snmpEventRemove (snmpEventDone s.loop) fds.sock snmpEvWrite := by
    simp [snmpWriteHandler, hsend]
  rw [hloop]
  exact (ended_snmpEventDone s.loop).remove fds.sock snmpEvWrite

/-- The part of a round behind the read callback. -/
theorem pollRest (h : s.loop = markedLoop fds wcb waiting false write kernel.signal.isSome)
    (hwrite : write = true → wcb = some .snmpWrite ∧ waiting = true) :
    pollSlots fds receive kernel [1, 2, 3, 4] (pollWrite fds receive kernel 0 s) =
      afterRead fds kernel write { s with loop := loopOf fds wcb waiting } := by
  cases write with
  | false =>
    have hskip : pollWrite fds receive kernel 0 s = s := by simp [pollWrite, h, markedLoop]
    rw [hskip]
    exact pollSlots_signal h
  | true =>
    obtain ⟨rfl, rfl⟩ := hwrite rfl
    rw [pollWrite_socket h, afterRead]
    have hrunning : (loopOf fds (some .snmpWrite) true).running = true := rfl
    simp only [hrunning, Bool.and_self, if_true]
    cases hsend : kernel.sendto with
    | true =>
      rw [if_pos rfl, pollSlots_signal rfl, snmpWriteHandler_sent rfl hsend]
      rfl
    | false =>
      have hended := ended_snmpWriteHandler fds hsend
        { s with loop := loopOf fds (some .snmpWrite) true }
      rw [if_neg Bool.false_ne_true, pollSlots_unmarked hended.unmarked,
        hended.stopped]
      rfl

theorem pending_loopOf (h : s.loop = loopOf fds wcb waiting) : s.pending fds = waiting := by
  cases waiting <;> simp [Transport.pending, h, loopOf, markedLoop, List.replicate]

theorem pollRead_socket {waiting write signal : Bool}
    (h : s.loop = markedLoop fds wcb waiting true write signal) :
    pollRead fds receive kernel 0 s =
      let s' := snmpReadHandler fds receive kernel s
      { s' with loop := s'.loop.modify 0 ({ · with read := false }) } := by
  obtain ⟨loop, client, buf, queue, agent, built, sent⟩ := s
  dsimp only at h
  subst h
  rfl

/-- Nothing happens any more in a round when the loop is done. -/
theorem pollRest_ended (h : Ended s.loop) (write : Bool) :
    pollSlots fds receive kernel [1, 2, 3, 4] (pollWrite fds receive kernel 0 s) =
      afterRead fds kernel write s := by
  rw [pollWrite_unmarked h.unmarked,
    pollSlots_unmarked h.unmarked]
  simp [afterRead, h.stopped]

/-- **A poll round** calls the handlers one after the other. -/
theorem snmpEventPoll_eq
    (hloop : s.loop = loopOf fds wcb waiting) (hwcb : waiting = true → wcb = some .snmpWrite) :
    snmpEventPoll fds receive kernel s = pollRound fds receive kernel s := by
  rw [pollRound, pending_loopOf hloop]
  obtain ⟨loop, client, buf, queue, agent, built, sent⟩ := s
  dsimp only at hloop
  subst hloop
  have hready : (waiting && kernel.writable) = true → wcb = some .snmpWrite ∧ waiting = true := by
    rw [Bool.and_eq_true]
    exact fun h => ⟨hwcb h.1, h.1⟩
  rw [snmpEventPoll, evPoll_loopOf, if_pos rfl, if_neg fds.distinct]
  simp only [decide_true, Bool.true_and]
  change pollSlots fds receive kernel [1, 2, 3, 4] (pollWrite fds receive kernel 0 _) = _
  generalize (waiting && kernel.writable) = write at hready
  have hdone : ∀ signal, (snmpEventDone (markedLoop fds wcb waiting true write signal)).modify 0
      ({ · with read := false }) = snmpEventDone (loopOf fds wcb waiting) := fun _ => rfl
  have hended := ended_snmpEventDone (loopOf fds wcb waiting)
  cases hrecv : kernel.recvfrom with
  | false =>
    rw [Bool.not_false, Bool.or_true, pollRead_socket rfl]
    simp only [snmpReadHandler, hrecv, Bool.not_false, if_true]
    rw [hdone]
    exact pollRest_ended hended write
  | true =>
    rcases queue with _ | ⟨⟨a, b⟩, queue⟩
    · rw [isEmpty_nil, Bool.not_true, Bool.or_self]
      have hskip : ∀ s : Transport S A, s.loop.event[0]?.map SnmpEvent.read = some false →
          pollRead fds receive kernel 0 s = s := by
        intro s hs
        rw [pollRead]
        split
        · next hev => simp [hev] at hs
        · rfl
      rw [hskip _ rfl]
      simp only [snmpReadHandler, hrecv, Bool.not_true, Bool.false_eq_true, if_false]
      exact pollRest rfl hready
    · rw [isEmpty_cons, Bool.not_false, Bool.true_or, pollRead_socket rfl]
      simp only [snmpReadHandler, hrecv, Bool.not_true, Bool.false_eq_true, if_false]
      rcases receive agent (b.take transpBufSiz) with _ | ⟨agent', _ | r⟩
      · exact pollRest_ended hended write
      · exact pollRest rfl hready
      · -- a response takes the place of a waiting one
        have hadd := snmpEventAdd_markedLoop fds wcb waiting
        have hidle : snmpEventAdd (loopOf fds wcb waiting) fds.sock snmpEvWrite .snmpWrite =
            loopOf fds (some .snmpWrite) true := hadd false false false
        simp only [transportSend, hadd, hidle]
        exact pollRest rfl fun _ => ⟨rfl, rfl⟩

end Rounds

/-! ### Delivery -/

section Delivery

variable {S A : Type} (fds : Descriptors)
  (receive : S → List UInt8 → Option (S × Option (List UInt8)))
  {s s₁ s' : Transport S A} {wcb wcb₁ : Option Handler} {waiting waiting₁ write : Bool}
  {i : UdpInput A}

/-- Every response that was built was sent, once and to its client, or is the one that is
going to be. -/
def Delivered (s : Transport S A) : Prop := s.built = s.sent ++ s.waiting fds

/-- What is asked of a step: no response is lost, sent twice or misdelivered, and a round that
finds the socket writable sends what waits. -/
def Delivers (s : Transport S A) (i : UdpInput A) (s' : Transport S A) : Prop :=
  Delivered fds s' ∧ ∀ kernel, i = .poll kernel → kernel.writable = true → s.built <+: s'.sent

/-- The next datagram, if there is one, comes from the client of the last one, and the agent
survives it without an answer. -/
def Innocuous (s : Transport S A) : Prop :=
  ∀ a b queue, s.queue = (a, b) :: queue →
    some a = s.client ∧ ∃ agent, receive s.agent (b.take transpBufSiz) = some (agent, none)

/-- The agent does not survive the next datagram. -/
def Fatal (s : Transport S A) : Prop :=
  ∃ a b queue, s.queue = (a, b) :: queue ∧ receive s.agent (b.take transpBufSiz) = none

/-- The next datagram is answered. -/
def Replied (s : Transport S A) : Prop :=
  ∃ a b queue agent r, s.queue = (a, b) :: queue ∧
    receive s.agent (b.take transpBufSiz) = some (agent, some r)

/-- The condition on a poll round. -/
structure Undisturbed (s : Transport S A) (kernel : Kernel) : Prop where
  /-- a datagram that is read while a response waits is innocuous -/
  reads : s.pending fds = true → kernel.recvfrom = true ∧ Innocuous receive s
  /-- the response is sent without a failure -/
  sends : s.pending fds = true → kernel.writable = true → kernel.sendto = true
  /-- an interrupt comes when the response can be sent -/
  interrupted : kernel.signal = some sigint → s.pending fds = true → kernel.writable = true
  /-- and no datagram is answered in its round -/
  unanswered : kernel.signal = some sigint → kernel.recvfrom = true → ¬Replied receive s

/-- The condition on a step. -/
def UndisturbedStep (s : Transport S A) : UdpInput A → Prop
  | .arrive _ _ => True
  | .poll kernel => s.loop.running = true → Undisturbed fds receive s kernel

/-- The event loop between two rounds. -/
def Shaped (s : Transport S A) : Prop :=
  Ended s.loop ∨
    ∃ wcb waiting, s.loop = loopOf fds wcb waiting ∧ (waiting = true → wcb = some .snmpWrite)

variable {fds receive} {kernel : Kernel}

theorem delivered_loopOf (h : s.loop = loopOf fds wcb waiting) :
    Delivered fds s ↔ s.built = s.sent ++ if waiting then [(s.client, s.buf)] else [] := by
  rw [Delivered, Transport.waiting, pending_loopOf h]

theorem delivered_ended (h : Ended s.loop) : Delivered fds s ↔ s.built = s.sent := by
  rw [Delivered, Transport.waiting, h.pending, if_neg Bool.false_ne_true, append_nil]

/-- What reading can do: the agent ends, or nothing has arrived, or a datagram is not answered, or
it is. -/
theorem snmpReadHandler_cases (hloop : s.loop = loopOf fds wcb waiting)
    (h : snmpReadHandler fds receive kernel s = s₁) :
    (Ended s₁.loop ∧ s₁.built = s.built ∧ s₁.sent = s.sent ∧
        (kernel.recvfrom = true → Fatal receive s)) ∨
      kernel.recvfrom = true ∧ ((s.queue = [] ∧ s₁ = s) ∨
        ∃ a b queue agent, s.queue = (a, b) :: queue ∧
          ((receive s.agent (b.take transpBufSiz) = some (agent, none) ∧
              s₁ = { s with queue := queue, client := some a, agent := agent }) ∨
            ∃ r, receive s.agent (b.take transpBufSiz) = some (agent, some r) ∧
              s₁ = { s with
                queue := queue, client := some a, agent := agent, buf := r
                built := s.built ++ [(some a, r)]
                loop := loopOf fds (some .snmpWrite) true })) := by
  subst h
  rw [snmpReadHandler]
  cases hrecv : kernel.recvfrom with
  | false => exact .inl ⟨ended_snmpEventDone _, rfl, rfl, by simp⟩
  | true =>
    rw [Bool.not_true, if_neg Bool.false_ne_true]
    rcases hqueue : s.queue with _ | ⟨⟨a, b⟩, queue⟩
    · exact .inr ⟨rfl, .inl ⟨rfl, rfl⟩⟩
    · dsimp only
      rcases hreceive : receive s.agent (b.take transpBufSiz) with _ | ⟨agent, _ | r⟩
      · exact .inl ⟨ended_snmpEventDone _, rfl, rfl, fun _ => ⟨a, b, queue, hqueue, hreceive⟩⟩
      · exact .inr ⟨rfl, .inr ⟨a, b, queue, agent, rfl, .inl ⟨hreceive, rfl⟩⟩⟩
      · have hadd : snmpEventAdd (loopOf fds wcb waiting) fds.sock snmpEvWrite .snmpWrite =
            loopOf fds (some .snmpWrite) true :=
          snmpEventAdd_markedLoop fds wcb waiting false false false
        refine .inr ⟨rfl, .inr ⟨a, b, queue, agent, rfl, .inr ⟨r, hreceive, ?_⟩⟩⟩
        simp only [transportSend, hloop, hadd]

/-- What holds when the agent has read on: a response that waits goes on waiting, and the account
is kept unless it loses its buffer or its client. -/
structure ReadsOn (fds : Descriptors)
    (receive : S → List UInt8 → Option (S × Option (List UInt8))) (waiting : Bool)
    (s s₁ : Transport S A) (wcb₁ : Option Handler) (waiting₁ : Bool) : Prop where
  loop : s₁.loop = loopOf fds wcb₁ waiting₁
  callback : waiting₁ = true → wcb₁ = some .snmpWrite
  stays : waiting = true → waiting₁ = true
  sent : s₁.sent = s.sent
  built : s.built <+: s₁.built
  owed : waiting₁ = true → s₁.built ≠ s₁.sent
  delivered : Delivered fds s₁ ↔ (waiting = true → Innocuous receive s)
  answered : waiting = false → (waiting₁ = true ↔ Replied receive s)

/-- **Step lemma of reading.** The agent ends or reads on. -/
theorem snmpReadHandler_readsOn
    (receive : S → List UInt8 → Option (S × Option (List UInt8))) (kernel : Kernel)
    (hloop : s.loop = loopOf fds wcb waiting) (hwcb : waiting = true → wcb = some .snmpWrite)
    (hs : Delivered fds s) (h : snmpReadHandler fds receive kernel s = s₁) :
    (Ended s₁.loop ∧ s₁.built = s.built ∧ s₁.sent = s.sent ∧
        (kernel.recvfrom = true → Fatal receive s)) ∨
      kernel.recvfrom = true ∧ ∃ wcb₁ waiting₁, ReadsOn fds receive waiting s s₁ wcb₁ waiting₁ := by
  rw [delivered_loopOf hloop] at hs
  -- a response that waits was built and not sent
  have howed : waiting = true → s.built ≠ s.sent := by
    rintro rfl
    rw [hs, if_pos rfl]
    simp
  have innocuous_iff : ∀ {a b queue}, s.queue = (a, b) :: queue → (Innocuous receive s ↔
      some a = s.client ∧ ∃ agent, receive s.agent (b.take transpBufSiz) = some (agent, none)) := by
    intro a b queue hqueue
    simp only [Innocuous, hqueue, List.cons.injEq, Prod.mk.injEq]
    constructor
    · exact fun h => h a b queue ⟨⟨rfl, rfl⟩, rfl⟩
    · rintro h _ _ _ ⟨⟨rfl, rfl⟩, -⟩
      exact h
  rcases snmpReadHandler_cases hloop h with hended | ⟨hrecv, hcase⟩
  · exact .inl hended
  refine .inr ⟨hrecv, ?_⟩
  -- no datagram, one without an answer, one that is answered
  obtain ⟨hqueue, rfl⟩ | ⟨a, b, queue, agent, hqueue, ⟨hreceive, rfl⟩ | ⟨r, hreceive, rfl⟩⟩ := hcase
  · refine ⟨wcb, waiting, hloop, hwcb, id, rfl, prefix_rfl, howed, ?_, ?_⟩
    · exact iff_of_true ((delivered_loopOf hloop).mpr hs) fun _ a b queue hcons => by
        rw [hqueue] at hcons
        cases hcons
    · rintro rfl
      simp [Replied, hqueue]
  · refine ⟨wcb, waiting, hloop, hwcb, id, rfl, prefix_rfl, howed, ?_, ?_⟩
    · refine Iff.trans (delivered_loopOf (by exact hloop)) ?_
      rw [hs, innocuous_iff hqueue, hreceive]
      cases waiting with
      | false => simp
      | true => simp [eq_comm]
    · rintro rfl
      simp [Replied, hqueue, hreceive]
  · refine ⟨some .snmpWrite, true, rfl, fun _ => rfl, fun _ => rfl, rfl, prefix_append .., ?_,
      ?_, ?_⟩
    · intro _ heq
      have hlen := congrArg List.length heq
      rw [hs] at hlen
      simp at hlen
    · refine Iff.trans (delivered_loopOf (by rfl)) ?_
      rw [if_pos rfl, append_left_inj, hs, innocuous_iff hqueue, hreceive]
      cases waiting <;> simp
    · rintro rfl
      simp [Replied, hqueue, hreceive]

/-- What the rest of a round can do: the response cannot be sent, or an interrupt ends the loop
behind it, or the loop goes on. -/
theorem afterRead_cases (kernel : Kernel)
    (hloop : s.loop = loopOf fds wcb waiting) (hwrite : write = true → waiting = true)
    (h : afterRead fds kernel write s = s') :
    let sent := if write then s.sent ++ [(s.client, s.buf)] else s.sent
    (Ended s'.loop ∧ s'.built = s.built ∧
        ((write = true ∧ kernel.sendto = false ∧ s'.sent = s.sent) ∨
          ((write = true → kernel.sendto = true) ∧ kernel.signal = some sigint ∧
            s'.sent = sent))) ∨
      ((write = true → kernel.sendto = true) ∧ kernel.signal ≠ some sigint ∧
        s' = { s with sent := sent, loop := loopOf fds wcb (waiting && !write) }) := by
  subst h
  have hrunning : s.loop.running = true := by rw [hloop]; rfl
  have hsignal : ∀ t : Transport S A,
      (Ended (snmpSignalHandler kernel t).loop ∧ (snmpSignalHandler kernel t).built = t.built ∧
          kernel.signal = some sigint ∧ (snmpSignalHandler kernel t).sent = t.sent) ∨
        (kernel.signal ≠ some sigint ∧ snmpSignalHandler kernel t = t) := by
    intro t
    rw [snmpSignalHandler]
    split
    · next hint => exact .inl ⟨ended_snmpEventDone _, rfl, hint, rfl⟩
    · next hint => exact .inr ⟨hint, rfl⟩
  -- the response is sent before the signal is read, if the loop still runs
  cases write with
  | false =>
    have hafter : afterRead fds kernel false s = snmpSignalHandler kernel s := by
      simp [afterRead, hrunning]
    rw [hafter]
    rcases hsignal s with ⟨hended, hbuilt, hint, hsent⟩ | ⟨hint, heq⟩
    · exact .inl ⟨hended, hbuilt, .inr ⟨by simp, hint, hsent⟩⟩
    · refine .inr ⟨by simp, hint, ?_⟩
      rw [heq, Bool.not_false, Bool.and_true, ← hloop]
      rfl
  | true =>
    obtain rfl := hwrite rfl
    cases hsend : kernel.sendto with
    | false =>
      have hended := ended_snmpWriteHandler fds hsend s
      have hafter : afterRead fds kernel true s = snmpWriteHandler fds kernel s := by
        simp [afterRead, hrunning, hended.stopped]
      rw [hafter]
      refine .inl ⟨hended, ?_, .inl ⟨rfl, rfl, ?_⟩⟩
      all_goals simp [snmpWriteHandler, hsend]
    | true =>
      have hafter : afterRead fds kernel true s = snmpSignalHandler kernel { s with
          sent := s.sent ++ [(s.client, s.buf)], loop := loopOf fds wcb false } := by
        have hgoes : (loopOf fds wcb false).running = true := rfl
        simp only [afterRead, hrunning, Bool.and_self, if_true,
          snmpWriteHandler_sent hloop hsend, hgoes]
      rw [hafter]
      rcases hsignal { s with
          sent := s.sent ++ [(s.client, s.buf)], loop := loopOf fds wcb false } with
        ⟨hended, hbuilt, hint, hsent⟩ | ⟨hint, heq⟩
      · exact .inl ⟨hended, hbuilt, .inr ⟨fun _ => rfl, hint, hsent⟩⟩
      · exact .inr ⟨fun _ => rfl, hint, heq⟩

/-- **Step lemma of the rest of a round.** -/
theorem delivered_afterRead (kernel : Kernel)
    (hloop : s.loop = loopOf fds wcb waiting) (howed : waiting = true → s.built ≠ s.sent)
    (hwrite : write = true → waiting = true) :
    Delivered fds (afterRead fds kernel write s) ↔
      Delivered fds s ∧ (write = true → kernel.sendto = true) ∧
        (kernel.signal = some sigint → waiting = true → write = true) := by
  rw [delivered_loopOf hloop]
  obtain ⟨hended, hbuilt, ⟨rfl, hsend, hsent⟩ | ⟨hsend, hint, hsent⟩⟩ | ⟨hsend, hint, heq⟩ :=
    afterRead_cases kernel hloop hwrite rfl
  · rw [delivered_ended hended, hbuilt, hsent, hsend]
    simp [howed (hwrite rfl)]
  · rw [delivered_ended hended, hbuilt, hsent]
    cases write with
    | true => simp [hwrite rfl, hsend rfl]
    | false =>
      cases waiting with
      | true => simp [hint, howed rfl]
      | false => simp
  · rw [heq]
    refine Iff.trans (delivered_loopOf (by rfl)) ?_
    cases write with
    | true => simp [hwrite rfl, hsend rfl]
    | false => simp [hint]

/-- What is sent in the rest of a round. -/
theorem sent_afterRead
    (hloop : s.loop = loopOf fds wcb waiting) (hwrite : write = true → waiting = true)
    (hsend : write = true → kernel.sendto = true) :
    (afterRead fds kernel write s).sent =
      if write then s.sent ++ [(s.client, s.buf)] else s.sent := by
  obtain ⟨-, -, ⟨hw, hfail, -⟩ | ⟨-, -, hsent⟩⟩ | ⟨-, -, heq⟩ :=
    afterRead_cases kernel hloop hwrite rfl
  · rw [hsend hw] at hfail
    cases hfail
  · exact hsent
  · rw [heq]

theorem shaped_afterRead
    (hloop : s.loop = loopOf fds wcb waiting) (hwcb : waiting = true → wcb = some .snmpWrite)
    (hwrite : write = true → waiting = true) : Shaped fds (afterRead fds kernel write s) := by
  obtain ⟨hended, -⟩ | ⟨-, -, heq⟩ := afterRead_cases kernel hloop hwrite rfl
  · exact .inl hended
  · rw [heq]
    exact .inr ⟨wcb, _, rfl, fun h => hwcb (Bool.and_elim_left h)⟩

/-- A round in which reading ends the agent. -/
theorem undisturbed_ended (hloop : s.loop = loopOf fds wcb waiting)
    (hcause : kernel.recvfrom = true → Fatal receive s) :
    Undisturbed fds receive s kernel ↔ waiting = false := by
  have hpending := pending_loopOf hloop
  cases waiting with
  | false =>
    refine iff_of_true ⟨by simp [hpending], by simp [hpending], by simp [hpending], ?_⟩ rfl
    rintro _ hrecv ⟨a, b, queue, agent, r, hqueue, hreceive⟩
    obtain ⟨a', b', queue', hqueue', hnone⟩ := hcause hrecv
    rw [hqueue] at hqueue'
    cases hqueue'
    rw [hreceive] at hnone
    cases hnone
  | true =>
    refine iff_of_false (fun hu => ?_) (by simp)
    obtain ⟨hrecv, hinnocuous⟩ := hu.reads hpending
    obtain ⟨a, b, queue, hqueue, hnone⟩ := hcause hrecv
    obtain ⟨-, agent, hreceive⟩ := hinnocuous a b queue hqueue
    rw [hnone] at hreceive
    cases hreceive

/-- A round in which the agent reads on. -/
theorem undisturbed_readsOn (hloop : s.loop = loopOf fds wcb waiting)
    (hrecv : kernel.recvfrom = true) (h₁ : ReadsOn fds receive waiting s s₁ wcb₁ waiting₁) :
    Undisturbed fds receive s kernel ↔
      Delivered fds s₁ ∧ ((waiting && kernel.writable) = true → kernel.sendto = true) ∧
        (kernel.signal = some sigint → waiting₁ = true → (waiting && kernel.writable) = true) := by
  have hpending := pending_loopOf hloop
  rw [h₁.delivered]
  cases waiting with
  | false =>
    have hanswered := h₁.answered rfl
    constructor
    · intro hu
      exact ⟨by simp, by simp, fun hint hw =>
        absurd (hanswered.mp hw) (hu.unanswered hint hrecv)⟩
    · rintro ⟨-, -, hint⟩
      refine ⟨by simp [hpending], by simp [hpending], by simp [hpending], fun hsig _ hans => ?_⟩
      have hw := hint hsig (hanswered.mpr hans)
      simp at hw
  | true =>
    rw [Bool.true_and]
    constructor
    · intro hu
      exact ⟨fun _ => (hu.reads hpending).2, hu.sends hpending,
        fun hint _ => hu.interrupted hint hpending⟩
    · rintro ⟨hinnocuous, hsend, hint⟩
      refine ⟨fun _ => ⟨hrecv, hinnocuous rfl⟩, fun _ => hsend,
        fun hsig _ => hint hsig (h₁.stays rfl), ?_⟩
      rintro _ _ ⟨a, b, queue, agent, r, hqueue, hreceive⟩
      obtain ⟨-, agent', hnone⟩ := hinnocuous rfl a b queue hqueue
      rw [hreceive] at hnone
      cases hnone

/-- A poll round of a loop that goes on. -/
theorem udpStep_poll
    (hloop : s.loop = loopOf fds wcb waiting) (hwcb : waiting = true → wcb = some .snmpWrite) :
    udpStep fds receive s (.poll kernel) =
      afterRead fds kernel (waiting && kernel.writable) (snmpReadHandler fds receive kernel s) := by
  have hrunning : s.loop.running = true := by rw [hloop]; rfl
  rw [udpStep, if_pos hrunning, snmpEventPoll_eq hloop hwcb, pollRound, pending_loopOf hloop]

/-- A poll round when the loop is done. -/
theorem udpStep_ended (h : Ended s.loop) : udpStep fds receive s (.poll kernel) = s := by
  rw [udpStep, h.stopped, if_neg Bool.false_ne_true]

theorem afterRead_ended (h : Ended s.loop) (write : Bool) : afterRead fds kernel write s = s := by
  simp [afterRead, h.stopped]

/-- **Step lemma of a round** of a loop that goes on. -/
theorem delivers_poll_iff
    (hloop : s.loop = loopOf fds wcb waiting) (hwcb : waiting = true → wcb = some .snmpWrite)
    (hs : Delivered fds s) :
    Delivers fds s (.poll kernel) (udpStep fds receive s (.poll kernel)) ↔
      Undisturbed fds receive s kernel := by
  rw [udpStep_poll hloop hwcb]
  have hread := snmpReadHandler_readsOn receive kernel hloop hwcb hs rfl
  rw [delivered_loopOf hloop] at hs
  rcases hread with ⟨hended, hbuilt, hsent, hcause⟩ | ⟨hrecv, wcb₁, waiting₁, h₁⟩
  · rw [undisturbed_ended hloop hcause, afterRead_ended hended, Delivers,
      delivered_ended hended, hbuilt, hsent, hs]
    cases waiting <;> simp
  · have hwrite : (waiting && kernel.writable) = true → waiting₁ = true := fun h =>
      h₁.stays (Bool.and_elim_left h)
    have hdelivered := delivered_afterRead kernel h₁.loop h₁.owed hwrite
    rw [undisturbed_readsOn hloop hrecv h₁, ← hdelivered]
    refine and_iff_left_of_imp fun hd => ?_
    rintro _ ⟨⟩ hwritable
    obtain ⟨hd₁, hsend, -⟩ := hdelivered.mp hd
    rw [sent_afterRead h₁.loop hwrite hsend, hwritable, Bool.and_true]
    cases waiting with
    | false =>
      rw [hs, if_neg Bool.false_ne_true, if_neg Bool.false_ne_true, append_nil, h₁.sent]
    | true =>
      rw [delivered_loopOf h₁.loop, if_pos (h₁.stays rfl)] at hd₁
      rw [if_pos rfl, ← hd₁]
      exact h₁.built

/-- **Step lemma.** From a state in which the responses are delivered, a step delivers them
if and only if it is undisturbed. -/
theorem delivers_iff_undisturbed (hs : Shaped fds s ∧ Delivered fds s) :
    Delivers fds s i (udpStep fds receive s i) ↔ UndisturbedStep fds receive s i := by
  obtain ⟨hshaped, hdelivered⟩ := hs
  cases i with
  | arrive a b => exact iff_of_true ⟨hdelivered, fun _ hpoll => by cases hpoll⟩ trivial
  | poll kernel =>
    rcases hshaped with hended | ⟨wcb, waiting, hloop, hwcb⟩
    · -- the loop is done, and all that was built had been sent
      rw [udpStep_ended hended]
      refine iff_of_true ⟨hdelivered, fun _ _ _ => ?_⟩ fun hrunning => ?_
      · rw [(delivered_ended hended).mp hdelivered]
      · rw [hended.stopped] at hrunning
        cases hrunning
    · rw [delivers_poll_iff hloop hwcb hdelivered, UndisturbedStep]
      have hrunning : s.loop.running = true := by rw [hloop]; rfl
      exact ⟨fun hu _ => hu, fun hu => hu hrunning⟩

/-- The loop keeps its shape. -/
theorem udpStep_shaped (hs : Shaped fds s ∧ Delivered fds s) :
    Shaped fds (udpStep fds receive s i) := by
  obtain ⟨hshaped, hdelivered⟩ := hs
  cases i with
  | arrive a b => exact hshaped
  | poll kernel =>
    rcases hshaped with hended | ⟨wcb, waiting, hloop, hwcb⟩
    · rw [udpStep_ended hended]
      exact .inl hended
    · rw [udpStep_poll hloop hwcb]
      rcases snmpReadHandler_readsOn receive kernel hloop hwcb hdelivered rfl with
        ⟨hended, -⟩ | ⟨-, wcb₁, waiting₁, h₁⟩
      · rw [afterRead_ended hended]
        exact .inl hended
      · exact shaped_afterRead h₁.loop h₁.callback fun h =>
          h₁.stays (Bool.and_elim_left h)

/-- **No response is lost or misdelivered**: in a run of arriving datagrams and poll rounds,
every step delivers the responses if and only if every step is undisturbed. -/
theorem udp_delivery_iff (fds : Descriptors)
    (receive : S → List UInt8 → Option (S × Option (List UInt8))) (agent : S)
    (inputs : List (UdpInput A)) :
    EveryStep (fun s i => some (udpStep fds receive s i)) (Delivers fds) (udpInit fds agent)
        inputs ↔
      EveryStep (fun s i => some (udpStep fds receive s i))
        (fun s i _ => UndisturbedStep fds receive s i) (udpInit fds agent) inputs := by
  have hinit : Shaped fds (udpInit fds agent : Transport S A) ∧
      Delivered fds (udpInit fds agent : Transport S A) := by
    have hloop := udpInit_loop (A := A) fds agent
    exact ⟨.inr ⟨none, false, hloop, by simp⟩, (delivered_loopOf hloop).mpr rfl⟩
  refine EveryStep.congr (fun s => Shaped fds s ∧ Delivered fds s) ?_ ?_ hinit
  · rintro s i s' - hs ⟨⟩
    exact delivers_iff_undisturbed hs
  · rintro s i s' - hs ⟨⟩ hu
    exact ⟨udpStep_shaped hs, ((delivers_iff_undisturbed hs).mpr hu).1⟩

end Delivery

/-! ### Lost and misdelivered responses -/

/-- The agent with one scalar behind the transport. -/
def scalarReceive (s : Snmpd Unit) (b : List UInt8) : Option (Snmpd Unit × Option (List UInt8)) :=
  (snmpdReceive [] plainCrypto (0, 0) scalarAgent s b).map fun r => (r.agent, r.response)

/-- The clients to which responses were sent in a run, and those for whom they were built. -/
def servedClients (inputs : List (UdpInput ℕ)) : List (Option ℕ) × List (Option ℕ) :=
  let fds : Descriptors := ⟨4, 3, by decide⟩
  let s := inputs.foldl (udpStep fds scalarReceive) (udpInit fds ⟨(), {}⟩)
  (s.sent.map Prod.fst, s.built.map Prod.fst)

/-- A second request in the round in which the first response is to be sent: the first
response is lost. A rejected datagram there: the response is sent to its sender. An empty datagram
there, and a response that cannot be sent: the response is lost. Each request in a round of its
own: both are answered. -/
theorem udp_response_lost_misdelivered :
    servedClients [.arrive 1 (getMessage [1]), .poll {}, .arrive 2 (getMessage [2]), .poll {},
        .poll {}] = ([some 2], [some 1, some 2]) ∧
      servedClients [.arrive 1 (getMessage [1]), .poll {}, .arrive 2 [0x31], .poll {},
        .poll {}] = ([some 2], [some 1]) ∧
      servedClients [.arrive 1 (getMessage [1]), .poll {}, .arrive 2 [], .poll {}, .poll {}] =
        ([], [some 1]) ∧
      servedClients [.arrive 1 (getMessage [1]), .poll {}, .poll { sendto := false }, .poll {}] =
        ([], [some 1]) ∧
      servedClients [.arrive 1 (getMessage [1]), .poll {}, .poll {}, .arrive 2 (getMessage [2]),
        .poll {}, .poll {}] = ([some 1, some 2], [some 1, some 2]) := by
  decide +kernel

end SmithSnmp
