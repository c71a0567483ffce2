import Mathlib.Data.List.Basic
import SmithSnmp.AgentxProc
import SmithSnmp.Lib.Runs

/-!
# The Two Phases of an AgentX SET

A SET reaches a sub-agent as a transaction of several PDUs: TestSet, then CommitSet or
CleanupSet, and after CommitSet either UndoSet or CleanupSet. Variables are to change at
CommitSet only, and to have their old values again when the transaction is undone or cleaned
up without a commit.

`agentx_request_dispatch` writes in the first phase: a TestSet goes to `agentx_set`, which
calls the handlers with SET, and the later PDUs are only answered.

## Main results

* `xMibSet_moves`: a varbind of a TestSet changes the MIB only through the handler of the
  instance that it reaches.
* `twoPhase_iff`: the two phases are kept, whatever the handlers are, if and only if no
  TestSet names a variable below an instance node.
-/

namespace SmithSnmp

open Lib Traced Option

/-! ### Transactions -/

/-- Where a transaction is. -/
inductive SetPhase where
  | idle
  | tested
  | committed
deriving DecidableEq, Repr

/-- The legal order of the PDUs of a transaction. -/
def SetPhase.next : SetPhase → AgentxDatagram → Option SetPhase
  | .idle, xdg => if xdg.pduHdr.type = agentxPduTestset then some .tested else none
  | .tested, xdg =>
    if xdg.pduHdr.type = agentxPduCommitset then some .committed
    else if xdg.pduHdr.type = agentxPduCleanupset then some .idle
    else none
  | .committed, xdg =>
    if xdg.pduHdr.type = agentxPduUndoset ∨ xdg.pduHdr.type = agentxPduCleanupset then
      some .idle
    else none

/-- The sub-agent in the course of SET transactions. -/
structure SetState (σ : Type) where
  /-- where the transaction is -/
  phase : SetPhase
  /-- the MIB before the transaction -/
  before : σ
  mib : σ

variable {σ : Type} (h : Handlers σ) (root : MibNode)

/-- The next PDU of a transaction is dispatched. -/
def setStep (s : SetState σ) (xdg : AgentxDatagram) : Option (SetState σ) :=
  (s.phase.next xdg).bind fun phase =>
    match agentxRequestDispatch h root xdg ⟨s.mib, []⟩ with
    | (some _, w) =>
      some {
        phase := phase
        before := if s.phase = .idle then s.mib else s.before
        mib := w.state }
    | (none, _) => none

/-- What a PDU may do: only CommitSet changes variables, and a transaction that is undone, or
cleaned up without a commit, leaves them as they were before. -/
def PhaseKept (s : SetState σ) (xdg : AgentxDatagram) (s' : SetState σ) : Prop :=
  (xdg.pduHdr.type ≠ agentxPduCommitset → s'.mib = s.mib) ∧
    (xdg.pduHdr.type = agentxPduUndoset ∨
        xdg.pduHdr.type = agentxPduCleanupset ∧ s.phase = .tested → s'.mib = s.before)

/-- The two phases of SET: along the PDUs, with any handlers and any variables. -/
def TwoPhase (pdus : List AgentxDatagram) : Prop :=
  ∀ (σ : Type) (h : Handlers σ) (mib : σ),
    EveryStep (setStep h root) PhaseKept ⟨.idle, mib, mib⟩ pdus

/-! ### What a TestSet does -/

/-- The OID is below an instance node, whose handler is then called. -/
def reachesInstance (oid : Oid) : Bool :=
  0 < oidCover agentxDummyView oid &&
    match mibTreeWalk oid root with
    | (.inst _, _ :: _) => true
    | _ => false

theorem mibTreeSearch_moves_eq {oid : Oid} (hoid : reachesInstance root oid = false)
    (ret : OidSearchRes) :
    Moves (mibTreeSearch h root agentxDummyView oid ret) Eq := by
  rw [mibTreeSearch]
  dsimp only
  split
  · exact Moves.pure fun _ => rfl
  · next hcover =>
      split
      · exact Moves.pure fun _ => rfl
      · exact Moves.pure fun _ => rfl
      · next hwalk =>
          rw [reachesInstance, hwalk, Bool.and_true, decide_eq_false_iff_not] at hoid
          exact absurd hoid (by omega)

/-- A TestSet that reaches no instance changes nothing. -/
theorem agentxSetLoop_moves_eq {vbs : List XVarBind}
    (hvbs : ∀ vb ∈ vbs, reachesInstance root vb.oid = false) (cnt : UInt32)
    (xdg : AgentxDatagram) (ret : OidSearchRes) :
    Moves (agentxSetLoop h root vbs cnt xdg ret) Eq := by
  induction vbs generalizing cnt xdg ret with
  | nil => exact Moves.pure fun _ => rfl
  | cons vb vbs ih =>
    refine Moves.bind (S := Eq) (T := Eq) ?_ (fun ret' => ?_) fun s t u => Eq.trans
    · exact (mibTreeSearch_moves_eq h root (hvbs vb List.mem_cons_self) _).map
    · exact ih (fun vb' hvb' => hvbs vb' (List.mem_cons_of_mem vb hvb')) _ _ _

/-- Handlers that count how often they are called, and raise an error. -/
def countingHandlers : Handlers ℕ where
  call := fun _ _ _ _ n => (.fail, n + 1)

theorem mibInstanceSearch_moves_succ (path : Oid) (ret : OidSearchRes) :
    Moves (mibInstanceSearch countingHandlers path ret) fun n m => m = n + 1 := by
  rw [mibInstanceSearch]
  refine Moves.bind (Moves.emit (S := Eq) fun _ => rfl) (fun _ => ?_) fun s t u hst htu => hst ▸ htu
  refine fun w => ⟨_, _, rfl, rfl⟩

theorem mibTreeSearch_moves_succ {oid : Oid} (hoid : reachesInstance root oid = true)
    (ret : OidSearchRes) :
    Moves (mibTreeSearch countingHandlers root agentxDummyView oid ret) fun n m => m = n + 1 := by
  rw [reachesInstance, Bool.and_eq_true, decide_eq_true_eq] at hoid
  obtain ⟨hcover, hwalk⟩ := hoid
  rw [mibTreeSearch]
  dsimp only
  rw [if_neg (by omega)]
  split at hwalk
  · next hwalk' =>
      rw [hwalk']
      refine Moves.bind (mibInstanceSearch_moves_succ _ _) (fun _ => Moves.pure fun _ => rfl) ?_
      rintro s t u hst rfl
      exact hst
  · exact absurd hwalk (by decide)

theorem agentxSetLoop_moves_count (vbs : List XVarBind) (cnt : UInt32) (xdg : AgentxDatagram)
    (ret : OidSearchRes) :
    Moves (agentxSetLoop countingHandlers root vbs cnt xdg ret) fun n m =>
      m = n + vbs.countP fun vb => reachesInstance root vb.oid := by
  induction vbs generalizing cnt xdg ret with
  | nil => exact Moves.pure fun _ => rfl
  | cons vb vbs ih =>
    have hset : Moves (xMibSet countingHandlers root vb (loadXValue vb ret)) fun n m =>
        m = n + if reachesInstance root vb.oid then 1 else 0 := by
      rw [xMibSet]
      cases hoid : reachesInstance root vb.oid with
      | false =>
        exact (mibTreeSearch_moves_eq _ root hoid _).map.mono fun _ _ hst => hst.symm
      | true => exact (mibTreeSearch_moves_succ root hoid _).map
    refine hset.bind (fun ret' => ih _ _ _) fun s t u hst htu => ?_
    rw [htu, hst, List.countP_cons]
    omega

/-! ### Runs -/

variable {h root}

/-- A legal PDU begins a transaction with a TestSet, or it is only answered. -/
theorem SetPhase.next_cases (h : Handlers σ) (root : MibNode) {phase phase' : SetPhase}
    {xdg : AgentxDatagram} (hnext : phase.next xdg = some phase') :
    (xdg.pduHdr.type = agentxPduTestset ∧ phase = .idle ∧ phase' = .tested ∧
        agentxRequestDispatch h root xdg = some <$> agentxSet h root xdg) ∨
      (xdg.pduHdr.type ≠ agentxPduTestset ∧ phase ≠ .idle ∧
        agentxRequestDispatch h root xdg = pure (some xdg)) := by
  have hanswered : ∀ {type : UInt8}, xdg.pduHdr.type = type →
      type = agentxPduCommitset ∨ type = agentxPduUndoset ∨ type = agentxPduCleanupset →
      xdg.pduHdr.type ≠ agentxPduTestset ∧
        agentxRequestDispatch h root xdg = pure (some xdg) := by
    rintro _ htype (rfl | rfl | rfl) <;> rw [agentxRequestDispatch, htype] <;>
      exact ⟨by decide, rfl⟩
  cases phase with
  | idle =>
    rw [SetPhase.next] at hnext
    split at hnext
    · next htype =>
        refine .inl ⟨htype, rfl, (some.inj hnext).symm, ?_⟩
        rw [agentxRequestDispatch, htype]
        rfl
    · cases hnext
  | tested =>
    rw [SetPhase.next] at hnext
    split at hnext
    · next htype =>
        obtain ⟨hne, hpure⟩ := hanswered htype (.inl rfl)
        exact .inr ⟨hne, nofun, hpure⟩
    · split at hnext
      · next htype =>
          obtain ⟨hne, hpure⟩ := hanswered htype (.inr (.inr rfl))
          exact .inr ⟨hne, nofun, hpure⟩
      · cases hnext
  | committed =>
    rw [SetPhase.next] at hnext
    split at hnext
    · next htype =>
        obtain ⟨hne, hpure⟩ := hanswered rfl (.inr htype)
        exact .inr ⟨hne, nofun, hpure⟩
    · cases hnext

theorem setStep_eq {s : SetState σ} {xdg : AgentxDatagram} {phase : SetPhase}
    (hnext : s.phase.next xdg = some phase) {a : Option AgentxDatagram} {w : World Event σ}
    (hdispatch : agentxRequestDispatch h root xdg ⟨s.mib, []⟩ = (some a, w)) :
    setStep h root s xdg = some {
      phase := phase
      before := if s.phase = .idle then s.mib else s.before
      mib := w.state } := by
  rw [setStep, hnext, bind_some, hdispatch]

/-- **One PDU** that reaches no instance keeps the two phases, and a transaction has not
changed anything then. -/
theorem setStep_kept {s s' : SetState σ} {xdg : AgentxDatagram}
    (hvbs : xdg.pduHdr.type = agentxPduTestset →
      ∀ vb ∈ xdg.vbInList, reachesInstance root vb.oid = false)
    (hs : s.phase ≠ .idle → s.before = s.mib) (hstep : setStep h root s xdg = some s') :
    PhaseKept s xdg s' ∧ (s'.phase ≠ .idle → s'.before = s'.mib) := by
  rcases hnext : s.phase.next xdg with _ | phase
  · rw [setStep, hnext] at hstep
    cases hstep
  · obtain ⟨htype, hidle, -, hset⟩ | ⟨htype, hbusy, hpure⟩ := SetPhase.next_cases h root hnext
    · obtain ⟨xdg', w, hrun, hw⟩ :=
        (agentxSetLoop_moves_eq h root (hvbs htype) 0 xdg { request := .set }).map
          (f := some) ⟨s.mib, []⟩
      rw [setStep_eq hnext (by rw [hset]; exact hrun)] at hstep
      obtain rfl := some.inj hstep
      rw [PhaseKept, htype]
      refine ⟨⟨fun _ => hw.symm, fun hend => ?_⟩, fun _ => ?_⟩
      · obtain hend | ⟨hend, -⟩ := hend
        · exact absurd hend (by decide)
        · exact absurd hend (by decide)
      · rw [if_pos hidle]
        exact hw
    · rw [setStep_eq hnext (by rw [hpure]; rfl)] at hstep
      obtain rfl := some.inj hstep
      rw [if_neg hbusy, PhaseKept]
      exact ⟨⟨fun _ => rfl, fun _ => (hs hbusy).symm⟩, fun _ => hs hbusy⟩

/-- A legal run that keeps the two phases with the counting handlers calls none of them. -/
theorem not_reachesInstance_of_kept {pdus : List AgentxDatagram} {s : SetState ℕ}
    (hlegal : (run SetPhase.next s.phase pdus).isSome)
    (hkept : EveryStep (setStep countingHandlers root) PhaseKept s pdus) :
    ∀ xdg ∈ pdus, xdg.pduHdr.type = agentxPduTestset →
      ∀ vb ∈ xdg.vbInList, reachesInstance root vb.oid = false := by
  induction pdus generalizing s with
  | nil => exact fun xdg hxdg => absurd hxdg List.not_mem_nil
  | cons xdg pdus ih =>
    rcases hnext : s.phase.next xdg with _ | phase
    · rw [run, hnext] at hlegal
      cases hlegal
    · rw [run, hnext, bind_some] at hlegal
      obtain ⟨htype, hidle, -, hset⟩ | ⟨htype, hbusy, hpure⟩ :=
        SetPhase.next_cases countingHandlers root hnext
      · obtain ⟨xdg', w, hrun, hw⟩ :=
          (agentxSetLoop_moves_count root xdg.vbInList 0 xdg { request := .set }).map
            (f := some) ⟨s.mib, []⟩
        obtain ⟨⟨hsame, -⟩, hrest⟩ := hkept _ (setStep_eq hnext (by rw [hset]; exact hrun))
        have hzero := hsame (by rw [htype]; decide)
        have hcount : (xdg.vbInList.countP fun vb => reachesInstance root vb.oid) = 0 := by
          dsimp only at hzero hw
          omega
        intro xdg₁ hxdg₁ htype₁
        obtain rfl | hxdg₁ := List.mem_cons.mp hxdg₁
        · simpa using List.countP_eq_zero.mp hcount
        · exact ih hlegal hrest xdg₁ hxdg₁ htype₁
      · obtain ⟨-, hrest⟩ := hkept _ (setStep_eq hnext (by rw [hpure]; rfl))
        intro xdg₁ hxdg₁ htype₁
        obtain rfl | hxdg₁ := List.mem_cons.mp hxdg₁
        · exact absurd htype₁ htype
        · exact ih hlegal hrest xdg₁ hxdg₁ htype₁

/-- **The two phases of SET.** In a legal order of PDUs, variables change at CommitSet only and
unfinished transactions leave no trace, whatever the handlers are, if and only if no TestSet
names a variable below an instance node. -/
theorem twoPhase_iff (root : MibNode) (pdus : List AgentxDatagram)
    (hlegal : (run SetPhase.next .idle pdus).isSome) :
    TwoPhase root pdus ↔
      ∀ xdg ∈ pdus, xdg.pduHdr.type = agentxPduTestset →
        ∀ vb ∈ xdg.vbInList, reachesInstance root vb.oid = false := by
  constructor
  · intro hkept
    exact not_reachesInstance_of_kept hlegal (hkept ℕ countingHandlers 0)
  · intro hpdus σ h mib
    refine EveryStep.of_invariant (fun s => s.phase ≠ .idle → s.before = s.mib) ?_ ?_
    · exact fun s xdg s' hxdg hs hstep => setStep_kept (hpdus xdg hxdg) hs hstep
    · exact fun hbusy => absurd rfl hbusy

/-! ### A TestSet that writes -/

/-- A tree with one instance node. -/
def oneGroup : MibNode := (mibNodeReg (.group []) [1, 3, 6, 1, 2, 1, 1] 1).2

/-- Handlers of one integer variable that can be set. -/
def variableHandlers : Handlers Int where
  call := fun _ request _ arg n =>
    match request, arg with
    | .set, some (.num m, _) => (.ret 0 [] .nil asn1TagInt, m)
    | _, _ => (.ret 0 [] (.num n) asn1TagInt, n)

/-- A transaction that asks for an integer at `oid` to be set and is then cleaned up. -/
def abandonedSet (oid : Oid) : List AgentxDatagram :=
  [{ pduHdr := { version := 1, type := agentxPduTestset, sessionId := 1, transactionId := 1 }
     vbInList := [{ oid := oid, valType := asn1TagInt.toUInt16, valLen := 1, value := [7, 0, 0, 0] }] },
   { pduHdr := { version := 1, type := agentxPduCleanupset, sessionId := 1, transactionId := 1 } }]

/-- A transaction for a variable that is not registered leaves no trace. -/
theorem abandonedSet_twoPhase :
    TwoPhase oneGroup (abandonedSet [1, 3, 6, 1, 2, 1, 2, 1, 0]) :=
  (twoPhase_iff oneGroup (abandonedSet [1, 3, 6, 1, 2, 1, 2, 1, 0]) (by decide)).mpr
    (by decide +kernel)

/-- **A TestSet writes**: the variable is 7 instead of 0 after a transaction that was cleaned
up without a commit. -/
theorem abandonedSet_writes :
    (run (setStep variableHandlers oneGroup) ⟨.idle, 0, 0⟩
      (abandonedSet [1, 3, 6, 1, 2, 1, 1, 1, 0])).map (fun s => (s.before, s.mib)) =
      some (0, 7) := by
  decide +kernel

end SmithSnmp
