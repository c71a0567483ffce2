import SmithSnmp.Datagram
import SmithSnmp.Lib.Traced
import SmithSnmp.MibTree

/-!
# Searching the MIB Tree

The search side of `core/mib_tree.c`: the call of a Lua handler
(`mibInstanceSearch`), the exact search of GET and SET (`mibTreeSearch`) and the traversal
of GETNEXT with its explicit stack of backlogged nodes (`mibTreeSearchNext`).

Handlers are arbitrary stateful functions. A failed `assert` ends the agent and is an
abort of the computation; every call of a handler, and later every varbind put into a
response, is an event of the log.

The buffer `ret_oid->oid` with the pointer `oid` into it is split at the pointer: `path`
is the part before it, `rest` the `id_len` sub-identifiers from it on.
-/

namespace SmithSnmp

open Lib

/-- The requests a handler sees. -/
inductive Request where
  | get
  | getnext
  | set
deriving DecidableEq, Repr

/-- Lua values that cross the border to C. -/
inductive LuaVal where
  | nil
  | num (n : Int)
  | str (s : List UInt8)
  | tab (ids : List Int)
deriving DecidableEq, Repr

/-- What `lua_pcall` of a handler gives: an error, or the four results of the handler. -/
inductive Reply where
  | fail
  | ret (errStat : Int32) (subOid : Oid) (val : LuaVal) (tag : UInt8)
deriving DecidableEq, Repr

/-- The registered Lua handlers, as functions of the callback reference, the request, the
instance part of the OID, for SET the value with its tag, and the state of the MIB. -/
structure Handlers (σ : Type) where
  /-- one call -/
  call : Int → Request → Oid → Option (LuaVal × UInt8) → σ → Reply × σ

/-- `struct oid_search_res`; `oid` is the return OID up to `id_len`, `instId` the instance
part up to `inst_id_len`. -/
structure OidSearchRes where
  oid : Oid := []
  /-- instance part of it -/
  instId : Oid := []
  callback : Int := 0
  request : Request
  errStat : Int32 := 0
  var : Variable := {}
deriving DecidableEq, Repr

/-- What the agent does that can be seen: calls of handlers, and varbinds added to the
response, with the OID whose handler supplied the value. -/
inductive Event where
  | call (request : Request) (callback : Int) (oid : Oid)
  | out (vb : VarBind) (src : Option Oid)
deriving DecidableEq, Repr

/-- Computations of the agent over the state of the MIB. -/
abbrev AgentM (σ : Type) := Traced Event σ

/-! ### Handler calls -/

/-- `lua_tointeger` -/
def LuaVal.toInteger : LuaVal → Int
  | .num n => n
  | _ => 0

/-- The elements of a table. -/
def LuaVal.elems : LuaVal → List Int
  | .tab ids => ids
  | _ => []

/-- The bytes of a string. -/
def LuaVal.bytes : LuaVal → List UInt8
  | .str s => s
  | _ => []

/-- The number of elements and the bytes that `mib_instance_search` stores for a value
with one of the copied tags. `length(var)` has 16 bits. -/
def luaCopy (tag : UInt8) (val : LuaVal) : UInt16 × List UInt8 :=
  if tag = asn1TagOctstr then
    let len := UInt16.ofNat val.bytes.length
    (len, val.bytes.take len.toNat)
  else if tag = asn1TagIpaddr then
    let len := UInt16.ofNat val.elems.length
    (len, (val.elems.take len.toNat).map UInt8.ofInt)
  else if tag = asn1TagObjid then
    let len := UInt16.ofNat val.elems.length
    (len, (val.elems.take len.toNat).flatMap fun n => leBytes (UInt32.ofInt n))
  else (1, leBytes (UInt32.ofInt val.toInteger))

/-- The arguments `req_val` and `req_val_type` of a SET call. -/
def luaPush (var : Variable) : LuaVal × UInt8 :=
  let word := peekWord var.value
  let val :=
    if var.tag = asn1TagInt then .num word.toInt32.toInt
    else if var.tag = asn1TagOctstr ∨ var.tag = asn1TagIpaddr then
      .str (peekBytes var.value var.len.toNat)
    else if var.tag = asn1TagObjid then
      .tab ((peekOid var.value var.len.toNat).map fun x => (x.toNat : Int))
    else if var.tag = asn1TagCnt ∨ var.tag = asn1TagGau ∨ var.tag = asn1TagTimeticks then
      .num word.toNat
    else .nil
  (val, var.tag)

/-- What `mib_instance_search` makes of a reply; `none` is the failed assertion on a valid
tag it cannot copy. The caller stores the returned error status, which is zero when the
handler raised an error. -/
def takeReply (path : Oid) (ret : OidSearchRes) : Reply → Option OidSearchRes
  | .fail => some { ret with errStat := 0, var := { ret.var with tag := asn1TagNoSuchObj } }
  | .ret errStat subOid val tag =>
    if errStat = 0 ∧ asn1TagValid tag = true then
      if ret.request = .set then
        some { ret with errStat := errStat, var := { ret.var with tag := tag } }
      else if asn1TagCopied tag = true then
        let instId := if ret.request = .getnext then subOid else ret.instId
        some { ret with
          errStat := errStat
          instId := instId
          var := {
            tag := tag
            len := (luaCopy tag val).1
            value := pokeBytes ret.var.value (luaCopy tag val).2
            src := some (path ++ instId) } }
      else none
    else some { ret with errStat := errStat, var := { ret.var with tag := tag } }

/-- `mib_instance_search` for the instance `ret.instId` below `path`. -/
def mibInstanceSearch {σ : Type} (h : Handlers σ) (path : Oid) (ret : OidSearchRes) :
    AgentM σ OidSearchRes := do
  Traced.emit (.call ret.request ret.callback (path ++ ret.instId))
  let arg := if ret.request = .set then some (luaPush ret.var) else none
  let reply ← Traced.access (h.call ret.callback ret.request ret.instId arg)
  match takeReply path ret reply with
  | some ret' => pure ret'
  | none => Traced.abort

/-! ### GET and SET -/

/-- The descent of `mib_tree_search`: the node where it ends, and what is left of the
OID. -/
def mibTreeWalk : Oid → MibNode → MibNode × Oid
  | [], node => (node, [])
  | x :: rest, .inst callback => (.inst callback, x :: rest)
  | x :: rest, .group subs =>
    let i := oidBinarySearch (subIds subs) x
    if 0 ≤ i then
      match subs[i.toNat]? with
      | some (_, node) => mibTreeWalk rest node
      | none => (.group subs, x :: rest)
    else (.group subs, x :: rest)

/-- `mib_tree_search` -/
def mibTreeSearch {σ : Type} (h : Handlers σ) (root : MibNode) (view orig : Oid)
    (ret : OidSearchRes) : AgentM σ (Option MibNode × OidSearchRes) :=
  -- duplicate the OID as return value
  let ret := { ret with oid := orig, errStat := 0 }
  if oidCover view orig ≤ 0 then
    -- out of range of the view
    pure (none, { ret with var := { ret.var with tag := asn1TagNoSuchObj } })
  else
    match mibTreeWalk orig root with
    | (.group subs, rest) =>
      pure (some (.group subs),
        { ret with instId := rest, var := { ret.var with tag := asn1TagNoSuchObj } })
    | (.inst callback, []) =>
      pure (some (.inst callback),
        { ret with instId := [], var := { ret.var with tag := asn1TagNoSuchInst } })
    | (.inst callback, x :: rest) => do
        let path := orig.take (orig.length - (x :: rest).length)
        let ret' ← mibInstanceSearch h path
          { ret with instId := x :: rest, callback := callback }
        pure (some (.inst callback), ret')

/-! ### GETNEXT -/

/-- The variables of `mib_tree_search_next`. A stack entry is a backlogged node, if any,
with the index of its next sub-node. -/
structure SearchState where
  node : Option MibNode
  /-- `p_nbl->n_idx`, when `p_nbl` is set -/
  pNbl : Option ℕ := none
  /-- `nbl_stack` below `top`, the top first -/
  stack : List (Option MibNode × ℕ) := []
  /-- `ret_oid->oid` up to the pointer `oid` -/
  path : Oid
  /-- the `id_len` sub-identifiers from the pointer on -/
  rest : Oid
  /-- fetch the first instance regardless of the given OID -/
  immediate : Bool

/-- Backlog the current group and move on to its sub-node `i`. -/
def SearchState.descend (subs : List (UInt32 × MibNode)) (i : ℕ) (st : SearchState) :
    SearchState :=
  { st with
    node := subs[i]?.map Prod.snd
    stack := (if subs.length ≤ i + 1 then (none, 0) else (some (.group subs), i + 1)) :: st.stack
    path := st.path ++ [(subs[i]?.map Prod.fst).getD 0] }

/-- One round of the traversal at a group node; `none` when there is no greater
sub-identifier and the traversal has to backtrack. -/
def SearchState.groupRound (subs : List (UInt32 × MibNode)) (st : SearchState) :
    Option SearchState :=
  if st.immediate then
    -- `n_idx` is not reusable
    some ({ st with pNbl := none }.descend subs (st.pNbl.getD 0))
  else
    let index := oidBinarySearch (subIds subs) (st.rest.headD 0)
    if index < 0 then
      let i := (-index - 1).toNat
      if i = subs.length then none
      else if i = 0 then some { st with immediate := true }
      else some ({ st with immediate := true, rest := st.rest.tail }.descend subs i)
    else
      let st' := { st with rest := st.rest.tail }.descend subs index.toNat
      -- when the OID is used up at a group, switch to the immediate mode
      if st'.rest.length = 0 ∧ (st'.node.map MibNode.isGroup).getD false then
        some { st' with immediate := true }
      else some st'

/-- Backtracking: the topmost backlogged node becomes the current one; `none` at the end
of the traversal. -/
def SearchState.backtrack (st : SearchState) : Option SearchState :=
  match st.stack with
  | [] => none
  | (node, nIdx) :: stack =>
    some { st with
      node := node
      pNbl := some nIdx
      stack := stack
      path := st.path.dropLast
      immediate := true }

/-- The result at the end of the traversal. -/
def endOfMibView (orig : Oid) (ret : OidSearchRes) : OidSearchRes :=
  { ret with
    oid := orig, instId := [], errStat := 0, var := { ret.var with tag := asn1TagEndOfMibView } }

/-- Leave the current node: `loop` goes on at the topmost backlogged one. -/
def retreat {σ : Type} (orig : Oid) (loop : SearchState → OidSearchRes → AgentM σ OidSearchRes)
    (st : SearchState) (ret : OidSearchRes) : AgentM σ OidSearchRes :=
  match st.backtrack with
  | none => pure (endOfMibView orig ret)
  | some st' => loop st' ret

/-- The loop of `mib_tree_search_next`, cut off after `fuel` rounds. -/
def searchLoop {σ : Type} (h : Handlers σ) (view orig : Oid) :
    ℕ → SearchState → OidSearchRes → AgentM σ OidSearchRes
  | 0, _, _ => Traced.abort
  | fuel + 1, st, ret =>
    let loop := searchLoop h view orig fuel
    match st.node with
    | none => retreat orig loop st ret
    | some (.group subs) =>
      match st.groupRound subs with
      | some st' => loop st' ret
      | none => retreat orig loop st ret
    | some (.inst callback) => do
        let instId := if st.immediate then [] else st.rest
        let ret ← mibInstanceSearch h st.path { ret with instId := instId, callback := callback }
        if asn1TagValid ret.var.tag then
          let ret := { ret with oid := st.path ++ ret.instId }
          if asn1OidMaxLen < ret.oid.length then Traced.abort
          else if oidCover view ret.oid = 0 then retreat orig loop st ret
          else pure ret
        else retreat orig loop st ret

mutual

/-- The rounds that the traversal can spend at a node and below it. -/
def nodeRounds : MibNode → ℕ
  | .inst _ => 1
  | .group subs => subsRounds subs + 3

/-- The rounds for the sub-nodes of a group. -/
def subsRounds : List (UInt32 × MibNode) → ℕ
  | [] => 0
  | s :: subs => subRounds s + subsRounds subs

/-- The rounds for one sub-node. -/
def subRounds : UInt32 × MibNode → ℕ
  | (_, node) => nodeRounds node + 1

end

/-- `mib_tree_search_next` -/
def mibTreeSearchNext {σ : Type} (h : Handlers σ) (root : MibNode) (view orig : Oid)
    (ret : OidSearchRes) : AgentM σ OidSearchRes :=
  let fuel := nodeRounds root + 1
  if 0 < oidCover view orig then do
    -- in the range of the view: search the root node at the view OID
    let (node, ret) ← mibTreeSearch h root view view { ret with request := .get }
    match node with
    | none => Traced.abort
    | some node =>
      let depth := view.length - ret.instId.length
      let ret := { ret with request := .getnext, oid := orig, errStat := 0 }
      searchLoop h view orig fuel
        { node := some node, path := orig.take depth, rest := orig.drop depth
          immediate := !(decide (depth < orig.length)) } ret
  else if oidCmp orig view < 0 then do
    -- ahead of the view: search the root node at the view OID
    let (node, ret) ← mibTreeSearch h root view view { ret with request := .get }
    match node with
    | none => Traced.abort
    | some node =>
      let depth := view.length - ret.instId.length
      let ret := { ret with request := .getnext, errStat := 0 }
      searchLoop h view orig fuel
        { node := some node, path := view.take depth, rest := view.drop depth
          immediate := node.isGroup } ret
  else
    searchLoop h view orig fuel { node := none, path := [], rest := [], immediate := false }
      { ret with oid := view, errStat := 0 }

end SmithSnmp
