import Mathlib.Logic.Function.Basic
import Mathlib.Data.List.Nodup
import SmithSnmp.Lib.Runs
import SmithSnmp.LuaIndex

/-!
# The Trap Registries

`lualib/smithsnmp/trap.lua` keeps the hosts that traps are sent to in a list, and the objects that
they carry in another one. Beside each list stands a table that maps a key, the address of a host
or the OID of an object, to the position of its entry. The functions for hosts and objects are the
same text twice; here they are one registry over keys and entries.

Two of the functions leave the table behind. `table.remove` moves the entries after the removed one
up, and the positions in the table stay. Clearing replaces the list and keeps the table, so that a
cleared key counts as registered. A registry therefore stays in order exactly as long as only its
last entry is unregistered, and it is cleared only when it is empty.

## Main results

* `registry_consistent_iff`: in every run of calls, the registry stays in order if and only if every
  call is harmless.
* `trapRegistries_consistent_iff`: the same for the hosts and the objects.
-/

namespace SmithSnmp

open List Lib

/-! ### Registries -/

/-- A list of entries and the table of positions; positions count from 1 and a key without one is
`nil`. -/
structure Registry (K E : Type) where
  /-- `trap_hosts`, `trap_objects` -/
  list : List E := []
  /-- `trap_host_indexes`, `trap_object_indexes` -/
  indexes : K → Option ℕ := fun _ => none

section Registry

variable {K E : Type} [DecidableEq K]

/-- Registering a key. There is no entry when building it raises an error. -/
def Registry.register (r : Registry K E) (key : K) (entry : Option E) : Registry K E :=
  match r.indexes key, entry with
  | none, some e =>
    { list := r.list ++ [e]
      indexes := Function.update r.indexes key (some (r.list.length + 1)) }
  | _, _ => r

/-- Unregistering a key: `table.remove` if there is an entry at its position. -/
def Registry.unregister (r : Registry K E) (key : K) : Registry K E :=
  { list := match r.indexes key with
      | some (i + 1) => r.list.eraseIdx i
      | _ => r.list
    indexes := Function.update r.indexes key none }

/-- Clearing the list. -/
def Registry.clear (r : Registry K E) : Registry K E := { r with list := [] }

/-- The calls of a registry. -/
inductive RegistryCall (K E : Type) where
  | register (key : K) (entry : Option E)
  | unregister (key : K)
  | clear

/-- One call. -/
def Registry.call (r : Registry K E) : RegistryCall K E → Registry K E
  | .register key entry => r.register key entry
  | .unregister key => r.unregister key
  | .clear => r.clear

/-! ### What a registry is for -/

/-- The keys registered and not since unregistered or cleared, with their entries, after one more
call. -/
def liveAfter (live : List (K × E)) : RegistryCall K E → List (K × E)
  | .register key entry =>
    match entry with
    | some e => if key ∈ live.map Prod.fst then live else live ++ [(key, e)]
    | none => live
  | .unregister key => live.filter fun s => s.1 ≠ key
  | .clear => []

/-- The position of a key. -/
def position (key : K) : List (K × E) → Option ℕ
  | [] => none
  | (k, _) :: live => if k = key then some 1 else (position key live).map (· + 1)

/-- The list holds the entries of the live keys, and the table their positions. -/
structure Registry.Consistent (r : Registry K E) (live : List (K × E)) : Prop where
  list : r.list = live.map Prod.snd
  indexes : ∀ key, r.indexes key = position key live

/-- A registry with what was registered by the calls so far. -/
structure RegistryRun (K E : Type) where
  registry : Registry K E := {}
  live : List (K × E) := []

/-- One call of a run. -/
def registryStep {ι : Type} (toCall : ι → RegistryCall K E) (s : RegistryRun K E) (i : ι) :
    Option (RegistryRun K E) :=
  some { registry := s.registry.call (toCall i), live := liveAfter s.live (toCall i) }

/-- Calls that do not disturb the positions: only the last entry is unregistered, and only an
empty list is cleared. -/
def Registry.Harmless (r : Registry K E) : RegistryCall K E → Prop
  | .register _ _ => True
  | .unregister key => r.indexes key = none ∨ r.indexes key = some r.list.length
  | .clear => r.list = []

instance (r : Registry K E) (call : RegistryCall K E) : Decidable (r.Harmless call) := by
  cases call <;> rw [Registry.Harmless] <;> infer_instance

/-! ### Positions -/

theorem position_eq_none_iff {key : K} {live : List (K × E)} :
    position key live = none ↔ key ∉ live.map Prod.fst := by
  induction live with
  | nil => simp [position]
  | cons s live ih =>
    rw [position]
    split
    · next h => simp [h]
    · next h => simp [ih, Ne.symm h]

/-- Positions in the first part do not depend on the second. -/
theorem position_append_left {key : K} {live rest : List (K × E)} (h : key ∈ live.map Prod.fst) :
    position key (live ++ rest) = position key live := by
  induction live with
  | nil => simp at h
  | cons s live ih =>
    rw [cons_append, position, position]
    split
    · rfl
    · next hne =>
        rw [ih ((mem_cons.mp h).resolve_left (Ne.symm hne))]

/-- Positions in the second part are counted from the end of the first. -/
theorem position_append_right {key : K} {live rest : List (K × E)} (h : key ∉ live.map Prod.fst) :
    position key (live ++ rest) = (position key rest).map (· + live.length) := by
  induction live with
  | nil => simp
  | cons s live ih =>
    obtain ⟨hne, hlive⟩ := not_or.mp (mt mem_cons.mpr h)
    rw [cons_append, position, if_neg (Ne.symm hne), ih hlive, Option.map_map]
    rfl

theorem position_eq_some {key : K} {live : List (K × E)} (h : key ∈ live.map Prod.fst) :
    ∃ l e r, live = l ++ (key, e) :: r ∧ key ∉ l.map Prod.fst ∧
      position key live = some (l.length + 1) := by
  obtain ⟨l, ⟨k, e⟩, r, rfl, hl, hk⟩ : ∃ l s r, live = l ++ s :: r ∧ key ∉ l.map Prod.fst ∧
      s.1 = key := by
    induction live with
    | nil => simp at h
    | cons s live ih =>
      by_cases hs : s.1 = key
      · exact ⟨[], s, live, rfl, by simp, hs⟩
      · obtain ⟨l, t, r, rfl, hl, ht⟩ := ih ((mem_cons.mp h).resolve_left (Ne.symm hs))
        exact ⟨s :: l, t, r, rfl, by simpa using ⟨Ne.symm hs, by simpa using hl⟩, ht⟩
  obtain rfl : k = key := hk
  refine ⟨l, e, r, rfl, hl, ?_⟩
  rw [position_append_right hl, position, if_pos rfl]
  simp [Nat.add_comm]

/-! ### One call -/

/-- Keys are live once. -/
theorem nodup_liveAfter {live : List (K × E)} (h : (live.map Prod.fst).Nodup)
    (call : RegistryCall K E) : ((liveAfter live call).map Prod.fst).Nodup := by
  cases call with
  | register key entry =>
    cases entry with
    | none => exact h
    | some e =>
      rw [liveAfter]
      split
      · exact h
      · next hkey => simpa [nodup_append] using ⟨h, fun a b hab => by
          rintro rfl
          exact hkey (mem_map_of_mem hab)⟩
  | unregister key => exact h.sublist (filter_sublist.map _)
  | clear => exact nodup_nil

variable {r : Registry K E} {live : List (K × E)}

theorem Registry.Consistent.register (h : r.Consistent live) (key : K) (entry : Option E) :
    (r.register key entry).Consistent (liveAfter live (.register key entry)) := by
  cases entry with
  | none =>
    have hsame : r.register key none = r := by
      cases hindex : r.indexes key <;> simp [Registry.register, hindex]
    rw [hsame]
    exact h
  | some e =>
    by_cases hkey : key ∈ live.map Prod.fst
    · have hpos : r.indexes key ≠ none := by
        rw [h.indexes key]
        exact fun hnone => position_eq_none_iff.mp hnone hkey
      obtain ⟨i, hi⟩ := Option.ne_none_iff_exists'.mp hpos
      simpa [Registry.register, hi, liveAfter, hkey] using h
    · have hpos : r.indexes key = none := (h.indexes key).trans (position_eq_none_iff.mpr hkey)
      simp only [Registry.register, hpos, liveAfter, hkey, if_false]
      refine ⟨by simp [h.list], fun k => ?_⟩
      dsimp only
      by_cases hk : k = key
      · subst hk
        rw [Function.update_self, position_append_right hkey, h.list]
        simp [position, Nat.add_comm]
      · rw [Function.update_of_ne hk, h.indexes k]
        by_cases hlive : k ∈ live.map Prod.fst
        · exact (position_append_left hlive).symm
        · rw [position_append_right hlive, position_eq_none_iff.mpr hlive, position,
            if_neg (Ne.symm hk)]
          rfl

/-- Unregistering keeps a registry in order when the key is not live or last, and else not: the
next entry moves up and its position stays. -/
theorem Registry.Consistent.unregister_iff (h : r.Consistent live)
    (hnd : (live.map Prod.fst).Nodup) (key : K) :
    (r.unregister key).Consistent (liveAfter live (.unregister key)) ↔
      r.Harmless (.unregister key) := by
  rw [liveAfter, Registry.Harmless]
  by_cases hkey : key ∈ live.map Prod.fst
  · obtain ⟨l, e, rest, rfl, hl, hpos⟩ := position_eq_some hkey
    have hindex : r.indexes key = some (l.length + 1) := (h.indexes key).trans hpos
    obtain ⟨-, hnd', hdisj⟩ := nodup_append.mp (by simpa using hnd)
    have hrest : key ∉ rest.map Prod.fst := (nodup_cons.mp (by simpa using hnd')).1
    have hfilter : (l ++ (key, e) :: rest).filter (fun s => s.1 ≠ key) = l ++ rest := by
      have hkeep : ∀ live' : List (K × E), key ∉ live'.map Prod.fst →
          live'.filter (fun s => s.1 ≠ key) = live' := fun live' hlive' =>
        filter_eq_self.mpr fun s hs => by
          simpa using fun heq : s.1 = key => hlive' (heq ▸ mem_map_of_mem hs)
      rw [filter_append, filter_cons, hkeep l hl, hkeep rest hrest]
      simp
    have hlist : (r.unregister key).list = (l ++ rest).map Prod.snd := by
      simp [Registry.unregister, hindex, h.list, eraseIdx_append_of_length_le]
    have hlen : r.list.length = l.length + 1 + rest.length := by
      rw [h.list]
      simp
      omega
    rw [hfilter, hindex, hlen]
    constructor
    · intro hafter
      cases rest with
      | nil => exact .inr rfl
      | cons s rest =>
        -- the entry after the removed one
        have hs : s.1 ∉ l.map Prod.fst := fun hs =>
          hdisj s.1 (by simpa using hs) s.1 (by simp) rfl
        have hsk : s.1 ≠ key := fun heq => hrest (by simp [heq])
        have hbefore := h.indexes s.1
        have hnow := hafter.indexes s.1
        rw [Registry.unregister] at hnow
        simp only [Function.update_of_ne hsk] at hnow
        rw [hbefore, position_append_right hs, position_append_right hs, position,
          if_neg (Ne.symm hsk), position, if_pos rfl] at hnow
        simp at hnow
    · rintro (hnone | hlast)
      · cases hnone
      · obtain rfl : rest = [] := by
          refine length_eq_zero_iff.mp ?_
          simpa using hlast
        refine ⟨hlist, fun k => ?_⟩
        rw [Registry.unregister]
        by_cases hk : k = key
        · subst hk
          rw [append_nil]
          simp [position_eq_none_iff.mpr hl]
        · simp only [Function.update_of_ne hk, h.indexes k, append_nil]
          by_cases hlive : k ∈ l.map Prod.fst
          · exact position_append_left hlive
          · rw [position_append_right hlive, position_eq_none_iff.mpr hlive, position,
              if_neg (Ne.symm hk)]
            rfl
  · have hindex : r.indexes key = none := (h.indexes key).trans (position_eq_none_iff.mpr hkey)
    have hsame : r.unregister key = r := by
      rw [Registry.unregister]
      simp only [hindex]
      rw [← hindex, Function.update_eq_self]
    have hfilter : live.filter (fun s => s.1 ≠ key) = live :=
      filter_eq_self.mpr fun s hs => by
        simpa using fun heq : s.1 = key => hkey (heq ▸ mem_map_of_mem hs)
    rw [hsame, hfilter]
    exact iff_of_true h (.inl hindex)

/-- Clearing keeps a registry in order when it is empty, and else not: the positions stay. -/
theorem Registry.Consistent.clear_iff (h : r.Consistent live) :
    r.clear.Consistent (liveAfter live .clear) ↔ r.Harmless .clear := by
  rw [liveAfter, Registry.Harmless, h.list, map_eq_nil_iff]
  constructor
  · intro hafter
    refine eq_nil_iff_forall_not_mem.mpr fun s hs => ?_
    have hnone : r.indexes s.1 = none := hafter.indexes s.1
    rw [h.indexes, position_eq_none_iff] at hnone
    exact hnone (mem_map_of_mem hs)
  · rintro rfl
    exact ⟨rfl, h.indexes⟩

/-- **Step lemma.** From a registry in order, a call leaves it in order if and only if it is
harmless. -/
theorem Registry.Consistent.call_iff (h : r.Consistent live) (hnd : (live.map Prod.fst).Nodup)
    (call : RegistryCall K E) :
    (r.call call).Consistent (liveAfter live call) ↔ r.Harmless call := by
  cases call with
  | register key entry => exact iff_of_true (h.register key entry) trivial
  | unregister key => exact h.unregister_iff hnd key
  | clear => exact h.clear_iff

/-- **Run lemma.** A registry stays in order in a run if and only if every call is harmless. -/
theorem registry_consistent_iff {ι : Type} (toCall : ι → RegistryCall K E) (calls : List ι) :
    EveryStep (registryStep toCall) (fun _ _ s => s.registry.Consistent s.live) {} calls ↔
      EveryStep (registryStep toCall) (fun s i _ => s.registry.Harmless (toCall i)) {} calls := by
  refine EveryStep.congr
    (fun s => s.registry.Consistent s.live ∧ (s.live.map Prod.fst).Nodup) ?_ ?_
    ⟨⟨rfl, fun _ => rfl⟩, nodup_nil⟩
  · rintro s i _ - ⟨hs, hnd⟩ ⟨⟩
    exact hs.call_iff hnd (toCall i)
  · rintro s i _ - ⟨hs, hnd⟩ ⟨⟩ hharmless
    exact ⟨(hs.call_iff hnd (toCall i)).mpr hharmless, nodup_liveAfter hnd (toCall i)⟩

end Registry

/-! ### Hosts and objects -/

/-- `utils.str2oid` -/
def str2oid (s : String) : List ℕ := digitRuns none s.toList

/-- An entry of `trap_hosts`. -/
structure TrapHost where
  community : String
  ip : List ℕ
  port : Int
deriving DecidableEq

/-- The entry of a host. Only IPv4 addresses are supported. -/
def hostEntry (community ip : String) (port : Int) : Option TrapHost :=
  let entry : TrapHost := { community := community, ip := str2oid ip, port := port }
  if entry.ip.length = 4 then some entry else none

/-- `host_register`; arguments that are left out are `nil`. -/
def hostRegister (hosts : Registry String TrapHost) (community : String) (ip : Option String)
    (port : Option Int) : Registry String TrapHost :=
  let ip := ip.getD "127.0.0.1"
  let port := port.getD 162
  hosts.register ip (hostEntry community ip port)

/-- `host_unregister` -/
def hostUnregister (hosts : Registry String TrapHost) (ip : String) : Registry String TrapHost :=
  hosts.unregister ip

/-- `host_clear` -/
def hostClear (hosts : Registry String TrapHost) : Registry String TrapHost := hosts.clear

/-- The calls for hosts. -/
inductive HostCall where
  | register (community : String) (ip : Option String) (port : Option Int)
  | unregister (ip : String)
  | clear

/-- One call. -/
def hostCall (hosts : Registry String TrapHost) : HostCall → Registry String TrapHost
  | .register community ip port => hostRegister hosts community ip port
  | .unregister ip => hostUnregister hosts ip
  | .clear => hostClear hosts

/-- What a call asks of the registry. -/
def HostCall.toCall : HostCall → RegistryCall String TrapHost
  | .register community ip port =>
    .register (ip.getD "127.0.0.1") (hostEntry community (ip.getD "127.0.0.1") (port.getD 162))
  | .unregister ip => .unregister ip
  | .clear => .clear

/-- One call of a run. -/
def hostStep (s : RegistryRun String TrapHost) (call : HostCall) :
    Option (RegistryRun String TrapHost) :=
  some { registry := hostCall s.registry call, live := liveAfter s.live call.toCall }

theorem hostStep_eq : hostStep = registryStep HostCall.toCall := by
  funext s call
  cases call <;> rfl

/-- An entry of `trap_objects`: the variable and its trigger are Lua values. -/
structure TrapObject (V T : Type) where
  oid : List ℕ
  object : V
  trigger : T
deriving DecidableEq

section Objects

variable {V T : Type}

/-- The entry of an object. The function `trigger` is called with the object, and gives nothing
when it raises an error. -/
def objectEntry (oid : String) (object : V) (trigger : V → Option T) : Option (TrapObject V T) :=
  (trigger object).map fun t => { oid := str2oid oid, object := object, trigger := t }

/-- `object_register` -/
def objectRegister (objects : Registry String (TrapObject V T)) (oid : String) (object : V)
    (trigger : V → Option T) : Registry String (TrapObject V T) :=
  objects.register oid (objectEntry oid object trigger)

/-- `object_unregister` -/
def objectUnregister (objects : Registry String (TrapObject V T)) (oid : String) :
    Registry String (TrapObject V T) :=
  objects.unregister oid

/-- `object_clear` -/
def objectClear (objects : Registry String (TrapObject V T)) : Registry String (TrapObject V T) :=
  objects.clear

/-- The calls for objects. -/
inductive ObjectCall (V T : Type) where
  | register (oid : String) (object : V) (trigger : V → Option T)
  | unregister (oid : String)
  | clear

/-- One call. -/
def objectCall (objects : Registry String (TrapObject V T)) :
    ObjectCall V T → Registry String (TrapObject V T)
  | .register oid object trigger => objectRegister objects oid object trigger
  | .unregister oid => objectUnregister objects oid
  | .clear => objectClear objects

/-- What a call asks of the registry. -/
def ObjectCall.toCall : ObjectCall V T → RegistryCall String (TrapObject V T)
  | .register oid object trigger => .register oid (objectEntry oid object trigger)
  | .unregister oid => .unregister oid
  | .clear => .clear

/-- One call of a run. -/
def objectStep (s : RegistryRun String (TrapObject V T)) (call : ObjectCall V T) :
    Option (RegistryRun String (TrapObject V T)) :=
  some { registry := objectCall s.registry call, live := liveAfter s.live call.toCall }

theorem objectStep_eq : (objectStep : _ → ObjectCall V T → _) = registryStep ObjectCall.toCall := by
  funext s call
  cases call <;> rfl

end Objects

/-- **The trap registries** stay in order in a run if and only if every call is harmless: in the
state before it, an unregistered key has no position or the last one, and a cleared list is
empty. -/
theorem trapRegistries_consistent_iff {V T : Type} (hosts : List HostCall)
    (objects : List (ObjectCall V T)) :
    (EveryStep hostStep (fun _ _ s => s.registry.Consistent s.live) {} hosts ↔
      EveryStep hostStep (fun s call _ => s.registry.Harmless call.toCall) {} hosts) ∧
    (EveryStep objectStep (fun _ _ s => s.registry.Consistent s.live) {} objects ↔
      EveryStep objectStep (fun s call _ => s.registry.Harmless call.toCall) {} objects) := by
  rw [hostStep_eq, objectStep_eq]
  exact ⟨registry_consistent_iff _ hosts, registry_consistent_iff _ objects⟩

/-- Two hosts are registered and the first one is unregistered. The second one is still in the list,
at the first position, and the table has it at the second: unregistering it removes nothing. And
after clearing, a host that was registered cannot be registered again. -/
theorem trapHosts_inconsistent :
    let first := HostCall.register "public" (some "10.0.0.1") none
    let second := HostCall.register "public" (some "10.0.0.2") none
    let host : TrapHost := ⟨"public", [10, 0, 0, 2], 162⟩
    (∃ s, run hostStep {} [first, second, .unregister "10.0.0.1"] = some s ∧
      s.registry.list = [host] ∧ s.registry.indexes "10.0.0.2" = some 2 ∧
      (hostUnregister s.registry "10.0.0.2").list = [host] ∧ ¬ s.registry.Consistent s.live) ∧
    ∃ s, run hostStep {} [second, .clear, second] = some s ∧
      s.registry.list = [] ∧ s.live = [("10.0.0.2", host)] ∧ ¬ s.registry.Consistent s.live :=
  ⟨⟨_, rfl, by decide, by decide, by decide, fun h => absurd (h.indexes "10.0.0.2") (by decide)⟩,
    _, rfl, by decide, by decide, fun h => absurd h.list (by decide)⟩

end SmithSnmp
