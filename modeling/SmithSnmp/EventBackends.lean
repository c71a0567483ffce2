import SmithSnmp.Transport

/-!
# The Back Ends of the Event Loop

`core/event_loop.c` polls with `core/event_select.h`, `core/event_epoll.h` or
`core/event_kqueue.h`. With select, a poll round looks up the descriptor of every slot among the
ready ones. The other two get a list of results from the kernel, and take the result at an index for
the slot at the same index, whatever its descriptor is.

## Main results

* `backends_agree_iff`: when a round with epoll or kqueue marks the slots that a round with select
  marks.
* `byPosition_eq_iff_own`: under the kernel's contract that is when every result says of the slot at
  its index what the result of that slot's descriptor says, so that the slots behind the results are
  not ready.
-/

namespace SmithSnmp

open Option

/-! ### Poll rounds -/

/-- `struct epoll_event`, with the bits that are read. -/
structure EpollEvent where
  fd : ℕ
  epollin : Bool
  epollout : Bool
deriving DecidableEq

/-- `EVFILT_READ` and `EVFILT_WRITE` -/
inductive KqueueFilter where
  | read
  | write
deriving DecidableEq

/-- `struct kevent` -/
structure Kevent where
  ident : ℕ
  filter : KqueueFilter
deriving DecidableEq

/-- What a result reports: its descriptor is ready for reading, or for writing. -/
structure Report where
  fd : ℕ
  read : Bool
  write : Bool
deriving DecidableEq

/-- What a result of epoll reports. -/
def EpollEvent.report (ee : EpollEvent) : Report := ⟨ee.fd, ee.epollin, ee.epollout⟩

/-- What a result of kqueue reports. -/
def Kevent.report (ke : Kevent) : Report := ⟨ke.ident, ke.filter = .read, ke.filter = .write⟩

/-- `event->read` and `event->write` are set. -/
def SnmpEvent.mark (ev : SnmpEvent) (read write : Bool) : SnmpEvent :=
  { ev with read := ev.read || read, write := ev.write || write }

/-- The loop of `__ev_poll` over the results: the result at `i` marks the slot at `i`. -/
def pollByPosition (event : List SnmpEvent) (reports : List Report) : List SnmpEvent :=
  event.mapIdx fun i ev =>
    match reports[i]? with
    | some r => ev.mark r.read r.write
    | none => ev

/-- `__ev_poll` of epoll; there are no results after a timeout. -/
def epollPoll (event : List SnmpEvent) (results : List EpollEvent) : List SnmpEvent :=
  pollByPosition event (results.map EpollEvent.report)

/-- `__ev_poll` of kqueue. -/
def kqueuePoll (event : List SnmpEvent) (results : List Kevent) : List SnmpEvent :=
  pollByPosition event (results.map Kevent.report)

/-- `__ev_poll` of select, with the descriptors left in the sets `rfds_` and `wfds_`. -/
def selectPoll (event : List SnmpEvent) (rfds wfds : ℕ → Bool) : List SnmpEvent :=
  event.map fun ev =>
    match ev.fd with
    | none => ev
    | some fd =>
      ev.mark (hasBit ev.flag snmpEvRead && rfds fd) (hasBit ev.flag snmpEvWrite && wfds fd)

/-- The calls of `snmp_event_poll` for a marked table, as long as no handler changes it: the
descriptor and what it is called for. -/
def calls (event : List SnmpEvent) : List (Option ℕ × UInt8) :=
  event.flatMap fun ev =>
    (if ev.read && ev.rcb.isSome then [(ev.fd, snmpEvRead)] else []) ++
      if ev.write && ev.wcb.isSome then [(ev.fd, snmpEvWrite)] else []

/-! ### Comparison -/

/-- A descriptor was reported ready for reading. -/
def reportedRead (reports : List Report) (fd : ℕ) : Bool :=
  reports.any fun r => r.fd = fd && r.read

/-- A descriptor was reported ready for writing. -/
def reportedWrite (reports : List Report) (fd : ℕ) : Bool :=
  reports.any fun r => r.fd = fd && r.write

/-- The result at the index of a slot is what the slot waits for: it carries a direction if and only
if the slot watches that direction and its descriptor was reported ready for it. Slots that are
marked already do not count. -/
def InPlace (reports : List Report) (i : ℕ) (ev : SnmpEvent) : Prop :=
  (ev.read = true ∨ ((∃ r ∈ reports[i]?, r.read = true) ↔
    hasBit ev.flag snmpEvRead = true ∧ ∃ fd ∈ ev.fd, reportedRead reports fd = true)) ∧
  (ev.write = true ∨ ((∃ r ∈ reports[i]?, r.write = true) ↔
    hasBit ev.flag snmpEvWrite = true ∧ ∃ fd ∈ ev.fd, reportedWrite reports fd = true))

/-- What a slot is marked with in a round. -/
theorem mark_eq_mark_iff {ev : SnmpEvent} {read write read' write' : Bool} :
    ev.mark read write = ev.mark read' write' ↔
      (ev.read = true ∨ (read = true ↔ read' = true)) ∧
        (ev.write = true ∨ (write = true ↔ write' = true)) := by
  cases hr : ev.read <;> cases hw : ev.write <;> simp [SnmpEvent.mark, hr, hw]

theorem mark_false (ev : SnmpEvent) : ev.mark false false = ev := by simp [SnmpEvent.mark]

/-- A slot after a round that goes by position. -/
theorem getElem?_pollByPosition (event : List SnmpEvent) (reports : List Report) (i : ℕ) :
    (pollByPosition event reports)[i]? = event[i]?.map fun ev =>
      ev.mark (reports[i]?.any Report.read) (reports[i]?.any Report.write) := by
  rw [pollByPosition, List.getElem?_mapIdx]
  cases reports[i]? <;> simp [mark_false]

/-- A slot after a round with select. -/
theorem getElem?_selectPoll (event : List SnmpEvent) (rfds wfds : ℕ → Bool) (i : ℕ) :
    (selectPoll event rfds wfds)[i]? = event[i]?.map fun ev =>
      ev.mark (hasBit ev.flag snmpEvRead && ev.fd.any rfds)
        (hasBit ev.flag snmpEvWrite && ev.fd.any wfds) := by
  rw [selectPoll, List.getElem?_map]
  congr 1
  funext ev
  cases ev.fd <;> simp [mark_false]

/-- **Going by position** marks the same slots as select if and only if every slot has its result in
place. -/
theorem byPosition_eq_iff (event : List SnmpEvent) (reports : List Report) :
    pollByPosition event reports =
        selectPoll event (reportedRead reports) (reportedWrite reports) ↔
      ∀ i ev, event[i]? = some ev → InPlace reports i ev := by
  rw [List.ext_getElem?_iff]
  refine forall_congr' fun i => ?_
  rw [getElem?_pollByPosition, getElem?_selectPoll]
  cases event[i]? with
  | none => simp
  | some ev =>
    simp only [map_some, some.injEq, forall_eq', mark_eq_mark_iff, InPlace,
      Bool.and_eq_true, any_eq_true, mem_def]

/-! ### The kernel's contract -/

/-- What holds of the results of a round: every descriptor is reported once, as ready, and only for
what its slot watches. A round starts without marks. Kqueue reports a descriptor twice when it is
ready for reading and for writing. -/
structure Reported (event : List SnmpEvent) (reports : List Report) : Prop where
  once : (reports.map Report.fd).Nodup
  ready : ∀ r ∈ reports, r.read = true ∨ r.write = true
  watched : ∀ r ∈ reports, ∀ ev ∈ event, ev.fd = some r.fd →
    (r.read = true → hasBit ev.flag snmpEvRead = true) ∧
      (r.write = true → hasBit ev.flag snmpEvWrite = true)
  unmarked : ∀ ev ∈ event, ev.read = false ∧ ev.write = false

/-- The result for the descriptor of a slot. -/
def ownReport (reports : List Report) (ev : SnmpEvent) : Option Report :=
  reports.find? fun r => ev.fd = some r.fd

/-- The directions that a result carries. -/
def Report.directions (r : Report) : Bool × Bool := (r.read, r.write)

section Contract

variable {event : List SnmpEvent} {reports : List Report} {ev : SnmpEvent} {r : Report}

theorem ownReport_eq_some_iff (h : (reports.map Report.fd).Nodup) :
    ownReport reports ev = some r ↔ r ∈ reports ∧ ev.fd = some r.fd := by
  constructor
  · intro hown
    exact ⟨List.mem_of_find?_eq_some hown, by simpa using List.find?_some hown⟩
  · rintro ⟨hr, hfd⟩
    obtain ⟨r', hown⟩ : ∃ r', ownReport reports ev = some r' :=
      isSome_iff_exists.mp (List.find?_isSome.mpr ⟨r, hr, by simpa using hfd⟩)
    have hfd' : ev.fd = some r'.fd := by simpa using List.find?_some hown
    have hsame : r'.fd = r.fd := some.inj (hfd'.symm.trans hfd)
    rw [hown, List.inj_on_of_nodup_map h (List.mem_of_find?_eq_some hown) hr hsame]

/-- A descriptor was reported for a direction when its result carries it. -/
theorem exists_reported_iff (h : (reports.map Report.fd).Nodup) (dir : Report → Bool) :
    (∃ fd ∈ ev.fd, (reports.any fun r => r.fd = fd && dir r) = true) ↔
      ∃ r ∈ ownReport reports ev, dir r = true := by
  simp only [mem_def, ownReport_eq_some_iff h, List.any_eq_true, Bool.and_eq_true,
    decide_eq_true_eq]
  constructor
  · rintro ⟨fd, hfd, r, hr, rfl, hdir⟩
    exact ⟨r, ⟨hr, hfd⟩, hdir⟩
  · rintro ⟨r, ⟨hr, hfd⟩, hdir⟩
    exact ⟨r.fd, hfd, r, hr, rfl, hdir⟩

/-- Two results that carry a direction each are the same in both directions, or are missing. -/
theorem directions_eq_iff {o o' : Option Report} (h : ∀ r ∈ o, r.read = true ∨ r.write = true)
    (h' : ∀ r ∈ o', r.read = true ∨ r.write = true) :
    o.map Report.directions = o'.map Report.directions ↔
      ((∃ r ∈ o, r.read = true) ↔ ∃ r ∈ o', r.read = true) ∧
        ((∃ r ∈ o, r.write = true) ↔ ∃ r ∈ o', r.write = true) := by
  have hnone : ∀ r : Report, (r.read = true ∨ r.write = true) →
      ¬ ((r.read = true ↔ False) ∧ (r.write = true ↔ False)) := by
    rintro r (hr | hw) ⟨hread, hwrite⟩
    · exact hread.mp hr
    · exact hwrite.mp hw
  cases o with
  | none =>
    cases o' with
    | none => simp
    | some r' => simpa [iff_comm] using hnone r' (h' r' rfl)
  | some r =>
    cases o' with
    | none => simpa using hnone r (h r rfl)
    | some r' => simp [Report.directions]

/-- **Under the kernel's contract** going by position marks the same slots as select if and only if
at the index of every slot there is a result with the directions of the slot's own one, or both are
missing. -/
theorem byPosition_eq_iff_own (h : Reported event reports) :
    pollByPosition event reports =
        selectPoll event (reportedRead reports) (reportedWrite reports) ↔
      ∀ (i : ℕ) ev, event[i]? = some ev →
        reports[i]?.map Report.directions = (ownReport reports ev).map Report.directions := by
  rw [byPosition_eq_iff]
  refine forall₃_congr fun i ev hev => ?_
  have hmem := List.mem_of_getElem? hev
  have hown : ∀ r ∈ ownReport reports ev, r ∈ reports ∧ ev.fd = some r.fd :=
    fun r hr => (ownReport_eq_some_iff h.once).mp hr
  have hread : hasBit ev.flag snmpEvRead = true ∧ (∃ fd ∈ ev.fd, reportedRead reports fd = true) ↔
      ∃ r ∈ ownReport reports ev, r.read = true := by
    refine (and_congr_right fun _ => exists_reported_iff h.once Report.read).trans
      (and_iff_right_of_imp ?_)
    rintro ⟨r, hr, hdir⟩
    exact (h.watched r (hown r hr).1 ev hmem (hown r hr).2).1 hdir
  have hwrite : hasBit ev.flag snmpEvWrite = true ∧
      (∃ fd ∈ ev.fd, reportedWrite reports fd = true) ↔
      ∃ r ∈ ownReport reports ev, r.write = true := by
    refine (and_congr_right fun _ => exists_reported_iff h.once Report.write).trans
      (and_iff_right_of_imp ?_)
    rintro ⟨r, hr, hdir⟩
    exact (h.watched r (hown r hr).1 ev hmem (hown r hr).2).2 hdir
  obtain ⟨hr, hw⟩ := h.unmarked ev hmem
  rw [directions_eq_iff (fun r hr => h.ready r (List.mem_of_getElem? hr))
    (fun r hr => h.ready r (hown r hr).1), InPlace, hr, hw, hread, hwrite]
  simp

/-- Then the slots that are ready are the first ones, as many as there are results. -/
theorem Reported.ready_iff_lt (h : Reported event reports)
    (hsame : pollByPosition event reports =
      selectPoll event (reportedRead reports) (reportedWrite reports)) {i : ℕ}
    (hev : event[i]? = some ev) : (∃ r ∈ reports, ev.fd = some r.fd) ↔ i < reports.length := by
  have hslot := (byPosition_eq_iff_own h).mp hsame i ev hev
  have hsome := congrArg Option.isSome hslot
  rw [isSome_map, isSome_map] at hsome
  have hlt : reports[i]?.isSome = true ↔ i < reports.length := by simp
  rw [← hlt, hsome, ownReport, List.find?_isSome]
  simp

end Contract

/-- **The back ends agree** in a round, for every table and all results in any order, if and only if
the result at the index of every slot is what the slot waits for. -/
theorem backends_agree_iff (event : List SnmpEvent) (ees : List EpollEvent) (kes : List Kevent) :
    (epollPoll event ees = selectPoll event (reportedRead (ees.map EpollEvent.report))
        (reportedWrite (ees.map EpollEvent.report)) ↔
      ∀ i ev, event[i]? = some ev → InPlace (ees.map EpollEvent.report) i ev) ∧
    (kqueuePoll event kes = selectPoll event (reportedRead (kes.map Kevent.report))
        (reportedWrite (kes.map Kevent.report)) ↔
      ∀ i ev, event[i]? = some ev → InPlace (kes.map Kevent.report) i ev) :=
  ⟨byPosition_eq_iff event _, byPosition_eq_iff event _⟩

/-- The socket 4 in the second slot is ready for reading, and nothing else. With epoll and with
kqueue the first slot is marked, and the read handler of the descriptor 3 is called. -/
theorem backends_mark_first :
    let event : List SnmpEvent := [
      { fd := some 3, rcb := some .snmpRead, flag := snmpEvRead },
      { fd := some 4, rcb := some .snmpRead, flag := snmpEvRead }, {}, {}, {}]
    calls (epollPoll event [⟨4, true, false⟩]) = [(some 3, snmpEvRead)] ∧
      calls (kqueuePoll event [⟨4, .read⟩]) = [(some 3, snmpEvRead)] ∧
      calls (selectPoll event (reportedRead [⟨4, true, false⟩])
        (reportedWrite [⟨4, true, false⟩])) = [(some 4, snmpEvRead)] := by
  decide

end SmithSnmp
