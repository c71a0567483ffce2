import SmithSnmp.Trap
import SmithSnmp.TrapRegistry

/-!
# Probing for Traps

`snmp_trap_probe` calls the function `trap_handler` of `lualib/smithsnmp/trap.lua` from time to
time. For every host it goes through the objects and adds the varbinds of those that are triggered
to the one trap datagram, which is sent at the end of the host. The first two objects are the time
and the kind of the trap: their varbinds are added when another object is triggered.

Triggers and values come from Lua functions that may raise an error, and `trap_varbind` itself may
raise one. The error is caught by `lua_pcall`, but the varbinds that were added before it stay in
the datagram, and the next trap carries them, whatever it is about.

## Main result

* `traps_own_iff`: in every run of probes, all traps carry their own varbinds and no others if and
  only if no probe that sends a trap comes after one that an error of Lua breaks off behind a
  `trap_varbind`.
-/

namespace SmithSnmp

open Lib Traced

variable {σ : Type}

variable {α : Type} {before : List VarBind}

/-! ### Objects -/

/-- The variable of a trap object: a Lua function, which gives nothing when it raises an error. -/
structure TrapVariable (σ : Type) where
  /-- the tag, as `uint8_t` -/
  tag : UInt8
  getF : σ → Option LuaVal × σ

/-- The trigger of a trap object, a function or any other value. -/
inductive TrapTrigger (σ : Type) where
  /-- whether the value is `true` -/
  | value (b : Bool)
  /-- whether the function gives `true`, if it does not raise an error -/
  | call (f : σ → Option Bool × σ)

/-- An entry of `trap_objects`. -/
abbrev TrapEntry (σ : Type) := TrapObject (TrapVariable σ) (TrapTrigger σ)

/-- What else a probe depends on. -/
structure TrapEnv (σ : Type) where
  random : σ → Int32 × σ
  /-- whether `trap_varbind` raises an error for well-formed arguments -/
  varbindRaises : σ → Bool × σ

/-! ### State -/

/-- A trap that is sent. -/
structure TrapRecord where
  /-- the varbinds of the datagram -/
  carried : List VarBind
  /-- the varbinds that were added for the host -/
  added : List (Oid × Variable)
  /-- what is handed to the socket -/
  trap : TrapSent

/-- The state of Lua and the trap datagram. -/
structure TrapState (σ : Type) where
  /-- the state of Lua -/
  lua : σ
  /-- `snmp_trap_datagram` -/
  tdg : TrapDatagram := {}
  /-- ghost: the varbinds added for the host so far -/
  added : List (Oid × Variable) := []
  /-- whether the agent has come to an end -/
  dead : Bool := false

/-- Probes record the traps that they send, and an error of Lua aborts them. -/
abbrev TrapM (σ : Type) := Traced TrapRecord (TrapState σ)

/-- A failed assertion, or a loop that never ends. -/
def die : TrapM σ α := do
  access fun s => ((), { s with dead := true })
  abort

/-- Let Lua go on. -/
def luaStep (f : σ → α × σ) : TrapM σ α :=
  access fun s => ((f s.lua).1, { s with lua := (f s.lua).2 })

/-- Call a Lua function. -/
def luaCall (f : σ → Option α × σ) : TrapM σ α := do
  match ← luaStep f with
  | some a => pure a
  | none => abort

/-! ### The interface to C -/

/-- The arguments of `trap_varbind`. -/
structure VarbindArgs where
  oid : List ℕ
  tag : UInt8
  value : LuaVal

/-- The variable that `smithsnmp_trap_varbind` fills in. -/
def VarbindArgs.variable (args : VarbindArgs) : Variable :=
  let (len, value) := luaCopy args.tag args.value
  { tag := args.tag, len := len, value := value }

/-- `snmp_trap_varbind` on the trap datagram. -/
def addVarbind (oid : Oid) (var : Variable) : TrapM σ Unit := do
  match ← access fun s =>
    match snmpTrapVarbind oid var s.tdg with
    | some tdg => (some (), { s with tdg := tdg, added := s.added ++ [(oid, var)] })
    | none => (none, s) with
  | some _ => pure ()
  | none => die

/-- `smithsnmp_trap_varbind`; the arguments are `nil` when the object was not triggered. -/
def smithsnmpTrapVarbind (env : TrapEnv σ) : Option VarbindArgs → TrapM σ Unit
  -- `luaL_checktype(L, 1, LUA_TTABLE)`
  | none => abort
  | some args => do
      if ← luaStep env.varbindRaises then abort
      -- `assert(0)`
      else if asn1TagCopied args.tag = false then die
      else addVarbind (args.oid.map UInt32.ofNat) args.variable

/-- `smithsnmp_trap_send` with version 2 -/
def smithsnmpTrapSend (env : TrapEnv σ) (host : TrapHost) : TrapM σ Unit := do
  let random ← luaStep env.random
  let community := cString host.community.toUTF8.toList
  match ← access fun s =>
    match snmpTrapSend trapV2 community random s.tdg with
    | some (tdg, trap) => (some ⟨s.tdg.vbList, s.added, trap⟩, { s with tdg := tdg, added := [] })
    | none => (none, s) with
  | some record => emit record
  | none => die

/-! ### `trap_handler` -/

/-- What the loop over the objects carries along. -/
structure HostBuild where
  /-- `oid1`, `tag1`, `value1` -/
  first : Option VarbindArgs := none
  /-- `oid2`, `tag2`, `value2` -/
  second : Option VarbindArgs := none
  send : Bool := false

/-- Whether the object is triggered. -/
def triggered : TrapTrigger σ → TrapM σ Bool
  | .value b => pure b
  | .call f => luaCall f

/-- The varbinds of the first two objects, which come first in the trap. -/
def addFirst (env : TrapEnv σ) (st : HostBuild) : TrapM σ Unit :=
  if st.send = false then do
    smithsnmpTrapVarbind env st.first
    smithsnmpTrapVarbind env st.second
  else pure ()

/-- The varbinds of an object behind the first two. -/
def addObject (env : TrapEnv σ) (st : HostBuild) (args : VarbindArgs) : TrapM σ HostBuild := do
  addFirst env st
  smithsnmpTrapVarbind env (some args)
  pure { st with send := true }

/-- The object at position `i`, counted from one. -/
def probeObject (env : TrapEnv σ) (i : ℕ) (object : TrapEntry σ) (st : HostBuild) :
    TrapM σ HostBuild := do
  if ← triggered object.trigger then do
    let value ← luaCall object.object.getF
    let args : VarbindArgs := ⟨object.oid, object.object.tag, value⟩
    if i = 1 then pure { st with first := some args }
    else if i = 2 then pure { st with second := some args }
    else addObject env st args
  else pure st

/-- The loop over the objects, from position `i` on. -/
def probeObjects (env : TrapEnv σ) : ℕ → List (TrapEntry σ) → HostBuild → TrapM σ HostBuild
  | _, [], st => pure st
  | i, object :: objects, st => do
      let st ← probeObject env i object st
      probeObjects env (i + 1) objects st

/-- The trap for a host. -/
def probeHost (env : TrapEnv σ) (objects : List (TrapEntry σ)) (host : TrapHost) :
    TrapM σ Unit := do
  access fun s => ((), { s with added := [] })
  let st ← probeObjects env 1 objects {}
  if st.send then smithsnmpTrapSend env host else pure ()

/-- `trap_handler` -/
def trapHandler (env : TrapEnv σ) (objects : List (TrapEntry σ)) : List TrapHost → TrapM σ Unit
  | [] => pure ()
  | host :: hosts => do
      probeHost env objects host
      trapHandler env objects hosts

/-! ### Runs -/

/-- The registered hosts and objects at a probe. -/
structure TrapProbe (σ : Type) where
  hosts : List TrapHost
  objects : List (TrapEntry σ)

/-- What a probe has done. -/
structure ProbeResult where
  sent : List TrapRecord
  /-- the varbinds that were added for the host at which an error was raised -/
  left : List (Oid × Variable)

/-- `snmp_trap_probe`: `lua_pcall` catches the errors of the handler. -/
def snmpTrapProbe (env : TrapEnv σ) (s : TrapState σ) (probe : TrapProbe σ) :
    TrapState σ × ProbeResult :=
  let w := (trapHandler env probe.objects probe.hosts ⟨{ s with added := [] }, []⟩).2
  (w.state, ⟨w.log, w.state.added⟩)

/-- A run of probes, as long as the agent does not come to an end. -/
def trapProbes (env : TrapEnv σ) : TrapState σ → List (TrapProbe σ) → List ProbeResult
  | _, [] => []
  | s, probe :: probes =>
    let (s', r) := snmpTrapProbe env s probe
    r :: if s'.dead then [] else trapProbes env s' probes

/-- A trap carries the varbinds that were added for it, and no others. -/
def TrapRecord.Own (t : TrapRecord) : Prop := t.carried = t.added.map trapVarBind

/-! ### The errors of Lua

The course of a probe is up to the Lua functions alone: what is in the datagram has no part in
it. -/

/-- Why `trap_handler` stops before its end. -/
structure HandlerStop where
  /-- varbinds were added for the host and not sent -/
  added : Bool
  /-- the agent comes to an end; otherwise an error was raised -/
  ended : Bool
deriving DecidableEq

/-- The handler without the datagram. -/
abbrev LuaM (σ : Type) := ExceptT HandlerStop (StateM σ)

/-- The call of a Lua function; varbinds were `added` before it, or none were. -/
def callLua (added : Bool) (f : σ → Option α × σ) : LuaM σ α := fun lua =>
  match f lua with
  | (some a, lua') => (.ok a, lua')
  | (none, lua') => (.error ⟨added, false⟩, lua')

/-- The lengths of the value and of the OID are found. -/
def VarbindArgs.Addable (args : VarbindArgs) : Prop :=
  (berValueEncTry args.variable.value args.variable.len.toNat args.tag).isSome ∧
    (berOidEncTry (args.oid.map UInt32.ofNat)).isSome

instance (args : VarbindArgs) : Decidable args.Addable :=
  inferInstanceAs (Decidable (_ ∧ _))

/-- A call of `trap_varbind`. -/
def callVarbind (env : TrapEnv σ) (added : Bool) : Option VarbindArgs → LuaM σ Unit
  | none => throw ⟨added, false⟩
  | some args => fun lua =>
    let (raises, lua') := env.varbindRaises lua
    if raises then (.error ⟨added, false⟩, lua')
    else if asn1TagCopied args.tag = false then (.error ⟨added, true⟩, lua')
    else if args.Addable then (.ok (), lua')
    else (.error ⟨added, true⟩, lua')

/-- The calls for the first two objects. -/
def callFirst (env : TrapEnv σ) (st : HostBuild) : LuaM σ Unit :=
  if st.send = false then do
    callVarbind env false st.first
    callVarbind env true st.second
  else pure ()

/-- The calls for a triggered object behind the first two. -/
def callObject (env : TrapEnv σ) (st : HostBuild) (args : VarbindArgs) : LuaM σ HostBuild := do
  callFirst env st
  callVarbind env true (some args)
  pure { st with send := true }

/-- The call of a trigger. -/
def callTrigger (added : Bool) : TrapTrigger σ → LuaM σ Bool
  | .value b => pure b
  | .call f => callLua added f

/-- The calls for the object at position `i`. -/
def callEntry (env : TrapEnv σ) (i : ℕ) (object : TrapEntry σ) (st : HostBuild) :
    LuaM σ HostBuild := do
  if ← callTrigger st.send object.trigger then do
    let value ← callLua st.send object.object.getF
    let args : VarbindArgs := ⟨object.oid, object.object.tag, value⟩
    if i = 1 then pure { st with first := some args }
    else if i = 2 then pure { st with second := some args }
    else callObject env st args
  else pure st

/-- The calls for all objects. -/
def callEntries (env : TrapEnv σ) : ℕ → List (TrapEntry σ) → HostBuild → LuaM σ HostBuild
  | _, [], st => pure st
  | i, object :: objects, st => do
      let st ← callEntry env i object st
      callEntries env (i + 1) objects st

/-- The course of a probe. -/
structure Course where
  sends : Bool
  /-- the handler is stopped when varbinds were added and not sent -/
  broken : Bool
  ended : Bool
deriving DecidableEq

/-- The course of a probe, and what it makes of Lua. -/
def probeCourse (env : TrapEnv σ) (objects : List (TrapEntry σ)) :
    List TrapHost → σ → Course × σ
  | [], lua => (⟨false, false, false⟩, lua)
  | _ :: hosts, lua =>
    match callEntries env 1 objects {} lua with
    | (.error stop, lua') => (⟨false, stop.added, stop.ended⟩, lua')
    | (.ok st, lua') =>
      let (course, lua'') :=
        probeCourse env objects hosts (if st.send then (env.random lua').2 else lua')
      ({ course with sends := st.send || course.sends }, lua'')

/-- The courses of the probes of a run. -/
def probeCourses (env : TrapEnv σ) : σ → List (TrapProbe σ) → List Course
  | _, [] => []
  | lua, probe :: probes =>
    let (course, lua') := probeCourse env probe.objects probe.hosts lua
    course :: if course.ended then [] else probeCourses env lua' probes

/-! ### What a probe sends -/

/-- The varbinds that are left over from before, once some traps were sent. -/
def leftover (before : List VarBind) : List TrapRecord → List VarBind
  | [] => before
  | _ :: _ => []

/-- The first trap carries what is left over, and the others only their own varbinds. -/
def FirstCarries (before : List VarBind) : List TrapRecord → Prop
  | [] => True
  | t :: ts => t.carried = before ++ t.added.map trapVarBind ∧ ∀ u ∈ ts, u.Own

section Sent

variable {sent sent' : List TrapRecord}

theorem leftover_append : leftover (leftover before sent) sent' = leftover before (sent ++ sent') := by
  cases sent with
  | nil => rfl
  | cons t ts => cases sent' <;> rfl

theorem leftover_eq_nil_iff : leftover before sent = [] ↔ before = [] ∨ sent ≠ [] := by
  cases sent <;> simp [leftover]

/-- The traps of a probe are all right when nothing was left over, or there are none. -/
theorem FirstCarries.own_iff (h : FirstCarries before sent) :
    (∀ t ∈ sent, t.Own) ↔ before = [] ∨ sent = [] := by
  cases sent with
  | nil => simp
  | cons t ts =>
    obtain ⟨ht, hts⟩ := h
    have hfirst : t.Own ↔ before = [] := by
      rw [TrapRecord.Own, ht]
      simp
    simp only [List.forall_mem_cons, hfirst, reduceCtorEq, or_false]
    exact and_iff_left hts

/-- More traps are sent. -/
theorem FirstCarries.append (h : FirstCarries before sent)
    (h' : FirstCarries (leftover before sent) sent') : FirstCarries before (sent ++ sent') := by
  cases sent with
  | nil => exact h'
  | cons t ts =>
    refine ⟨h.1, fun u hu => ?_⟩
    rcases List.mem_append.mp hu with hu | hu
    · exact h.2 u hu
    · exact h'.own_iff.mpr (.inl rfl) u hu

end Sent

/-! ### The course of a probe -/

section Courses

variable {added ended : Bool} {s : TrapState σ}

/-- The datagram has the varbinds `before` and those that were added for the host; there are such
ones or not, and the agent has come to an end or not. The lengths of the OIDs are found. -/
structure Holding (before : List VarBind) (added ended : Bool) (s : TrapState σ) : Prop where
  list : s.tdg.vbList = before ++ s.added.map trapVarBind
  added : s.added.isEmpty = !added
  ended : s.dead = ended
  lengths : ∀ vb ∈ s.tdg.vbList, (berOidEncTry vb.oid).isSome

theorem Holding.lua (h : Holding before added ended s) (lua : σ) :
    Holding before added ended { s with lua := lua } :=
  ⟨h.list, h.added, h.ended, h.lengths⟩

theorem Holding.die (h : Holding before added ended s) :
    Holding before added true { s with dead := true } :=
  ⟨h.list, h.added, rfl, h.lengths⟩

/-- A part of the handler that sends nothing goes the way of the calls. -/
def Follows (before : List VarBind) (added : Bool) (x : TrapM σ α) (calls : LuaM σ α)
    (after : α → Bool) : Prop :=
  ∀ w, Holding before added false w.state →
    (x w).2.log = w.log ∧ (x w).2.state.lua = (calls w.state.lua).2 ∧
      match (calls w.state.lua).1 with
      | .ok a => (x w).1 = some a ∧ Holding before (after a) false (x w).2.state
      | .error stop => (x w).1 = none ∧ Holding before stop.added stop.ended (x w).2.state

theorem Follows.pure {a : α} {after : α → Bool} (h : after a = added) :
    Follows (σ := σ) before added (Pure.pure a) (Pure.pure a) after :=
  fun _ hw => ⟨rfl, rfl, rfl, h.symm ▸ hw⟩

theorem Follows.bind {β : Type} {x : TrapM σ α} {calls : LuaM σ α} {mid : α → Bool}
    {f : α → TrapM σ β} {next : α → LuaM σ β} {after : β → Bool}
    (hx : Follows before added x calls mid)
    (hf : ∀ a, Follows before (mid a) (f a) (next a) after) :
    Follows before added (x >>= f) (calls >>= next) after := by
  intro w hw
  obtain ⟨hlog, hlua, hend⟩ := hx w hw
  have hcalls : (calls >>= next) w.state.lua = match calls w.state.lua with
      | (.ok a, lua) => next a lua
      | (.error stop, lua) => (.error stop, lua) := by
    simp only [Bind.bind, ExceptT.bind, ExceptT.mk, StateT.bind]
    rcases calls w.state.lua with ⟨_ | a, lua⟩ <;> rfl
  rw [hcalls, bind_apply]
  generalize x w = run at hlog hlua hend
  obtain ⟨r, w'⟩ := run
  rcases hc : calls w.state.lua with ⟨stop | a, lua⟩
  · simp only [hc] at hlua hend
    obtain ⟨rfl, hhold⟩ := hend
    exact ⟨hlog, hlua, rfl, hhold⟩
  · simp only [hc] at hlua hend
    obtain ⟨rfl, hhold⟩ := hend
    obtain ⟨hlog', hlua', hend'⟩ := hf a w' hhold
    rw [hlua] at hlua' hend'
    exact ⟨hlog'.trans hlog, hlua', hend'⟩

theorem luaCall_follows (f : σ → Option α × σ) :
    Follows before added (luaCall f) (callLua added f) fun _ => added := by
  intro w hw
  rcases hf : f w.state.lua with ⟨_ | a, lua⟩ <;>
    simp [luaCall, luaStep, callLua, bind_apply, hf, hw.lua lua]

/-- A varbind is added if the lengths of its parts are found. -/
theorem snmpTrapVarbind_eq_none_iff {args : VarbindArgs} {tdg : TrapDatagram} :
    snmpTrapVarbind (args.oid.map UInt32.ofNat) args.variable tdg = none ↔ ¬ args.Addable := by
  have htag : args.variable.tag = args.tag := rfl
  rw [VarbindArgs.Addable, snmpTrapVarbind, htag]
  cases berValueEncTry args.variable.value args.variable.len.toNat args.tag <;>
    cases berOidEncTry (args.oid.map UInt32.ofNat) <;> simp

/-- **A call of `trap_varbind`**: once it returns, there is a varbind for the host. -/
theorem smithsnmpTrapVarbind_follows (env : TrapEnv σ) (args : Option VarbindArgs) :
    Follows before added (smithsnmpTrapVarbind env args) (callVarbind env added args)
      fun _ => true := by
  intro w hw
  cases args with
  | none => exact ⟨rfl, rfl, rfl, hw⟩
  | some args =>
    rcases hraises : env.varbindRaises w.state.lua with ⟨_ | _, lua⟩
    · have hdie := (hw.lua lua).die
      by_cases htag : asn1TagCopied args.tag = false
      · simp [smithsnmpTrapVarbind, luaStep, callVarbind, die, bind_apply, hraises, htag, hdie]
      · cases hadd : snmpTrapVarbind (args.oid.map UInt32.ofNat) args.variable w.state.tdg with
        | none =>
          simp [smithsnmpTrapVarbind, luaStep, callVarbind, addVarbind, die, bind_apply, hraises,
            htag, hadd, snmpTrapVarbind_eq_none_iff.mp hadd, hdie]
        | some tdg' =>
          have haddable : args.Addable := by
            by_contra hnot
            rw [← snmpTrapVarbind_eq_none_iff, hadd] at hnot
            cases hnot
          have hlist : tdg'.vbList = w.state.tdg.vbList ++
              [trapVarBind (args.oid.map UInt32.ofNat, args.variable)] := by
            rw [(snmpTrapVarbind_eq hadd).1]
          have hnew : Holding before true false { w.state with
              lua := lua
              tdg := tdg'
              added := w.state.added ++ [(args.oid.map UInt32.ofNat, args.variable)] } := by
            refine ⟨by simp [hlist, hw.list], by simp, hw.ended, fun vb hvb => ?_⟩
            rcases List.mem_append.mp (hlist ▸ hvb) with hvb | hvb
            · exact hw.lengths vb hvb
            · rw [List.mem_singleton.mp hvb]
              exact haddable.2
          simp [smithsnmpTrapVarbind, luaStep, callVarbind, addVarbind, bind_apply, hraises, htag,
            hadd, haddable, hnew]
    · simp [smithsnmpTrapVarbind, luaStep, callVarbind, bind_apply, hraises, hw.lua lua]

theorem addObject_follows (env : TrapEnv σ) (st : HostBuild) (args : VarbindArgs) :
    Follows before st.send (addObject env st args) (callObject env st args) (·.send) := by
  have hfirst : Follows before st.send (addFirst env st) (callFirst env st) fun _ => true := by
    rw [addFirst, callFirst]
    by_cases hsend : st.send = false
    · rw [if_pos hsend, if_pos hsend, hsend]
      exact (smithsnmpTrapVarbind_follows env _).bind fun _ => smithsnmpTrapVarbind_follows env _
    · rw [if_neg hsend, if_neg hsend]
      exact Follows.pure (by simpa using hsend)
  exact hfirst.bind fun _ => (smithsnmpTrapVarbind_follows env _).bind fun _ => Follows.pure rfl

theorem probeObject_follows (env : TrapEnv σ) (i : ℕ) (object : TrapEntry σ) (st : HostBuild) :
    Follows before st.send (probeObject env i object st) (callEntry env i object st) (·.send) := by
  have htrigger : Follows before st.send (triggered object.trigger)
      (callTrigger st.send object.trigger) fun _ => st.send := by
    cases object.trigger with
    | value b => exact Follows.pure rfl
    | call f => exact luaCall_follows f
  refine htrigger.bind fun b => ?_
  cases b with
  | false => exact Follows.pure rfl
  | true =>
    refine (luaCall_follows object.object.getF).bind fun value => ?_
    dsimp only
    split
    · exact Follows.pure rfl
    · split
      · exact Follows.pure rfl
      · exact addObject_follows env st _

theorem probeObjects_follows (env : TrapEnv σ) (i : ℕ) (objects : List (TrapEntry σ))
    (st : HostBuild) :
    Follows before st.send (probeObjects env i objects st) (callEntries env i objects st)
      (·.send) := by
  induction objects generalizing i st with
  | nil => exact Follows.pure rfl
  | cons object objects ih =>
    exact (probeObject_follows env i object st).bind fun st' => ih (i + 1) st'

/-- **A trap is sent**, and with it all that the datagram holds. -/
theorem smithsnmpTrapSend_sends (env : TrapEnv σ) (host : TrapHost)
    {w : World TrapRecord (TrapState σ)} (hw : Holding before added false w.state) :
    ∃ t s', smithsnmpTrapSend env host w = (some (), ⟨s', w.log ++ [t]⟩) ∧
      FirstCarries before [t] ∧ s'.lua = (env.random w.state.lua).2 ∧
      Holding [] false false s' := by
  obtain ⟨tdg', trap, hsend, hlist⟩ : ∃ tdg' trap, snmpTrapSend trapV2
      (cString host.community.toUTF8.toList) (env.random w.state.lua).1 w.state.tdg =
        some (tdg', trap) ∧ tdg'.vbList = [] := by
    simp [snmpTrapSend, snmpTrapEncode, trapSizes, mapM_varBindTlv hw.lengths, trapDatagramClear]
  refine ⟨⟨w.state.tdg.vbList, w.state.added, trap⟩, { w.state with
    lua := (env.random w.state.lua).2, tdg := tdg', added := [] }, ?_, ⟨hw.list, by simp⟩, rfl,
    hlist, rfl, hw.ended, by simp [hlist]⟩
  simp only [smithsnmpTrapSend, luaStep, bind_apply, access_apply, hsend, emit_apply]

/-- **The trap for a host** goes the way of the calls. -/
theorem probeHost_course (env : TrapEnv σ) (objects : List (TrapEntry σ)) (host : TrapHost)
    {w : World TrapRecord (TrapState σ)} (hw : Holding before false false w.state) :
    match callEntries env 1 objects {} w.state.lua with
    | (.error stop, lua) => ∃ s', probeHost env objects host w = (none, ⟨s', w.log⟩) ∧
        s'.lua = lua ∧ Holding before stop.added stop.ended s'
    | (.ok st, lua) => ∃ s' sent, probeHost env objects host w = (some (), ⟨s', w.log ++ sent⟩) ∧
        FirstCarries before sent ∧ sent.isEmpty = !st.send ∧
        s'.lua = (if st.send then (env.random lua).2 else lua) ∧
        Holding (leftover before sent) false false s' := by
  have hnone : w.state.added = [] := by simpa using hw.added
  have hstart : Holding before false false { w.state with added := [] } :=
    ⟨by rw [hw.list, hnone], rfl, hw.ended, hw.lengths⟩
  obtain ⟨hlog, hlua, hend⟩ := probeObjects_follows env 1 objects {} ⟨_, w.log⟩ hstart
  have hrun : probeHost env objects host w =
      (probeObjects env 1 objects {} >>= fun st =>
        if st.send then smithsnmpTrapSend env host else pure ()) ⟨_, w.log⟩ := rfl
  rw [hrun, bind_apply]
  generalize probeObjects env 1 objects {} ⟨{ w.state with added := [] }, w.log⟩ = run
    at hlog hlua hend
  obtain ⟨r, s₁, log₁⟩ := run
  obtain rfl : log₁ = w.log := hlog
  rcases hcalls : callEntries env 1 objects {} w.state.lua with ⟨stop | st, lua⟩
  · simp only [hcalls] at hlua hend
    obtain ⟨rfl, hhold⟩ := hend
    exact ⟨s₁, rfl, hlua, hhold⟩
  · simp only [hcalls] at hlua hend
    obtain ⟨rfl, hhold⟩ := hend
    cases hsend : st.send with
    | false =>
      rw [hsend] at hhold
      exact ⟨s₁, [], by simp [hsend], trivial, by rw [hsend]; rfl, by rw [hsend]; exact hlua, hhold⟩
    | true =>
      obtain ⟨t, s', hrun', ht, hlua', hnew⟩ := smithsnmpTrapSend_sends env host
        (w := ⟨s₁, w.log⟩) hhold
      exact ⟨s', [t], by simpa [hsend] using hrun', ht, by rw [hsend]; rfl,
        by rw [hlua', hlua, hsend]; rfl, hnew⟩

/-- **A probe goes the way of the calls.** The induction is over the hosts. -/
theorem trapHandler_course (env : TrapEnv σ) (objects : List (TrapEntry σ)) (hosts : List TrapHost)
    {w : World TrapRecord (TrapState σ)} (hw : Holding before false false w.state) :
    let w' := (trapHandler env objects hosts w).2
    let course := probeCourse env objects hosts w.state.lua
    ∃ sent, w'.log = w.log ++ sent ∧ FirstCarries before sent ∧ sent.isEmpty = !course.1.sends ∧
      w'.state.lua = course.2 ∧
      Holding (leftover before sent) course.1.broken course.1.ended w'.state := by
  induction hosts generalizing w before with
  | nil => exact ⟨[], by simp [trapHandler], trivial, rfl, rfl, hw⟩
  | cons host hosts ih =>
    have hhost := probeHost_course env objects host hw
    rw [trapHandler, bind_apply]
    rcases hcalls : callEntries env 1 objects {} w.state.lua with ⟨stop | st, lua⟩
    · rw [hcalls] at hhost
      obtain ⟨s', hrun, hlua, hhold⟩ := hhost
      simp only [hrun, probeCourse, hcalls]
      exact ⟨[], by simp, trivial, rfl, hlua, hhold⟩
    · rw [hcalls] at hhost
      obtain ⟨s', sent, hrun, hfirst, hsent, hlua, hhold⟩ := hhost
      obtain ⟨sent', hlog, hfirst', hsent', hlua', hhold'⟩ := ih (w := ⟨s', w.log ++ sent⟩) hhold
      rw [show s'.lua = _ from hlua] at hsent' hlua' hhold'
      rw [leftover_append] at hhold'
      simp only [hrun, probeCourse, hcalls]
      refine ⟨sent ++ sent', by rw [hlog, List.append_assoc], hfirst.append hfirst', ?_, hlua',
        hhold'⟩
      have happend : (sent ++ sent').isEmpty = (sent.isEmpty && sent'.isEmpty) := by
        cases sent <;> simp
      rw [happend, hsent, hsent', Bool.not_or]

/-- **One probe**: its first trap carries what was in the datagram, and it leaves what it has added
and not sent. -/
theorem snmpTrapProbe_course (env : TrapEnv σ) (probe : TrapProbe σ)
    (hlengths : ∀ vb ∈ s.tdg.vbList, (berOidEncTry vb.oid).isSome) (halive : s.dead = false) :
    let course := probeCourse env probe.objects probe.hosts s.lua
    let (s', r) := snmpTrapProbe env s probe
    FirstCarries s.tdg.vbList r.sent ∧ r.sent.isEmpty = !course.1.sends ∧ s'.lua = course.2 ∧
      Holding (leftover s.tdg.vbList r.sent) course.1.broken course.1.ended s' := by
  have hstart : Holding s.tdg.vbList false false { s with added := [] } :=
    ⟨by simp, rfl, halive, hlengths⟩
  obtain ⟨sent, hlog, h⟩ :=
    trapHandler_course env probe.objects probe.hosts (w := ⟨_, []⟩) hstart
  obtain rfl : _ = sent := hlog
  exact h

end Courses

/-! ### All probes -/

/-- A probe in front of others that start with the varbinds `after` in the datagram. -/
theorem FirstCarries.own_cons_iff (after : List VarBind) {r : ProbeResult} {rs : List ProbeResult}
    {c : Course} {cs : List Course} (hfirst : FirstCarries before r.sent)
    (hsent : r.sent.isEmpty = !c.sends)
    (hafter : after = [] ↔ (before = [] ∨ r.sent ≠ []) ∧ c.broken = false)
    (hrs : (∀ r' ∈ rs, ∀ t ∈ r'.sent, t.Own) ↔ (after = [] ∨ ∀ c' ∈ cs, c'.sends = false) ∧
      cs.Pairwise fun c c' => c.broken = true → c'.sends = false) :
    (∀ r' ∈ r :: rs, ∀ t ∈ r'.sent, t.Own) ↔
      (before = [] ∨ ∀ c' ∈ c :: cs, c'.sends = false) ∧
        (c :: cs).Pairwise fun c c' => c.broken = true → c'.sends = false := by
  have hsilent : r.sent = [] ↔ c.sends = false := by
    rw [← List.isEmpty_iff, hsent]
    simp
  have hcarry : (∀ c' ∈ cs, c.broken = true → c'.sends = false) ↔
      (c.broken = true → ∀ c' ∈ cs, c'.sends = false) :=
    ⟨fun h hne c' hc' => h c' hc' hne, fun h c' hc' hne => h hne c' hc'⟩
  rw [List.forall_mem_cons, List.forall_mem_cons, List.pairwise_cons, hfirst.own_iff, hrs, hafter,
    hcarry, ne_eq, hsilent]
  -- what remains is about the four facts only
  generalize (∀ c' ∈ cs, c'.sends = false) = quiet
  cases c.broken <;> cases c.sends <;> by_cases hbefore : before = [] <;> simp [hbefore]

/-- A run that starts with some varbinds in the datagram: they must not be carried either. -/
theorem trapProbes_own_iff (env : TrapEnv σ) (probes : List (TrapProbe σ)) {s : TrapState σ}
    (hlengths : ∀ vb ∈ s.tdg.vbList, (berOidEncTry vb.oid).isSome) (halive : s.dead = false) :
    (∀ r ∈ trapProbes env s probes, ∀ t ∈ r.sent, t.Own) ↔
      (s.tdg.vbList = [] ∨ ∀ c ∈ probeCourses env s.lua probes, c.sends = false) ∧
        (probeCourses env s.lua probes).Pairwise fun c c' =>
          c.broken = true → c'.sends = false := by
  induction probes generalizing s with
  | nil => simp [trapProbes, probeCourses]
  | cons probe probes ih =>
    have hprobe := snmpTrapProbe_course env probe hlengths halive
    rw [trapProbes, probeCourses]
    generalize snmpTrapProbe env s probe = step at hprobe
    generalize probeCourse env probe.objects probe.hosts s.lua = course at hprobe
    obtain ⟨s', r⟩ := step
    obtain ⟨c, lua'⟩ := course
    obtain ⟨hfirst, hsent, rfl, hhold⟩ := hprobe
    refine hfirst.own_cons_iff s'.tdg.vbList hsent ?_ ?_
    · have hadded : s'.added = [] ↔ c.broken = false := by
        rw [← List.isEmpty_iff, hhold.added, Bool.not_eq_true']
      rw [hhold.list, List.append_eq_nil_iff, leftover_eq_nil_iff, List.map_eq_nil_iff, hadded]
    · rw [hhold.ended]
      split
      · simp
      · next hgoes => exact ih hhold.lengths (hhold.ended.trans (by simpa using hgoes))

/-- **The varbinds of a trap.** In every run of probes, whatever errors are raised, every trap that
is sent carries the varbinds that were added for its host and no others if and only if no probe that
sends a trap comes after one that the Lua functions break off behind a `trap_varbind`. -/
theorem traps_own_iff (env : TrapEnv σ) (lua : σ) (probes : List (TrapProbe σ)) :
    (∀ r ∈ trapProbes env { lua := lua } probes, ∀ t ∈ r.sent, t.Own) ↔
      (probeCourses env lua probes).Pairwise fun c c' => c.broken = true → c'.sends = false := by
  rw [trapProbes_own_iff (s := { lua := lua }) env probes (by simp) rfl]
  exact and_iff_right (.inl rfl)

/-- The time, the kind of the trap and two values, of which the second one raises an error the first
time it is asked for. -/
def raisingObjects : List (TrapEntry Bool) :=
  [⟨[1, 3, 6, 1, 2, 1, 1, 3, 0], ⟨asn1TagTimeticks, fun b => (some (.num 5), b)⟩, .value true⟩,
    ⟨[1, 3, 6, 1, 6, 3, 1, 1, 4, 1, 0],
      ⟨asn1TagObjid, fun b => (some (.tab [1, 3, 6, 1, 6, 3, 1, 1, 5, 3]), b)⟩, .value true⟩,
    ⟨[1, 3, 6, 1, 2, 1, 2, 2, 1, 1, 1], ⟨asn1TagInt, fun b => (some (.num 1), b)⟩,
      .call fun b => (some true, b)⟩,
    ⟨[1, 3, 6, 1, 2, 1, 2, 2, 1, 8, 1],
      ⟨asn1TagInt, fun b => (if b then some (.num 2) else none, true)⟩, .value true⟩]

/-- The first probe ends with an error and leaves three varbinds; the trap of the second probe, to
which four varbinds are added, carries seven. -/
theorem traps_carry_leftovers :
    let env : TrapEnv Bool := ⟨fun b => (5, b), fun b => (false, b)⟩
    let probe : TrapProbe Bool := ⟨[⟨"public", [127, 0, 0, 1], 162⟩], raisingObjects⟩
    (trapProbes env { lua := false } [probe, probe]).map (fun r =>
      (r.sent.map fun t => (t.carried.length, t.added.length), r.left.length)) =
        [([], 3), ([(7, 4)], 0)] := by
  decide +kernel

end SmithSnmp
