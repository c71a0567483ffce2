import Mathlib.Data.List.AList
import Mathlib.Data.List.Sort
import SmithSnmp.LuaIndex
import SmithSnmp.MibSearch

/-!
# Lua Groups

What `register_mib_group` registers for an instance node: a group of scalars and tables, with one
handler for GET, GETNEXT and SET. The handler generates the index blocks of the group anew for every
request. A group is the data of its variables, and the functions `get_f` and `set_f` of a variable
stand beside them, by the numbers that lead to it. They may change the state of the MIB and raise
errors; what was changed before an error stays changed.

The tables of a group stay as they are while the agent runs, a table has its one entry at number
one, and numbers are natural numbers. `io_f` is left out.

## Main results

* `mibGroupIndexesGenerate_spec`: what the blocks are made from.
* `generate_ascending`: the object numbers ascend over the blocks.
* `effectiveObjectIndex_of_mem`: the number of dimensions of an object.
-/

namespace SmithSnmp

open List Option

variable {σ : Type}

variable {scalars : List ℕ} {no : ℕ}

/-! ### Groups -/

/-- `MIB_ACES_UNA`, `MIB_ACES_RO` and `MIB_ACES_RW` -/
inductive Access where
  | una
  | ro
  | rw
deriving DecidableEq, Repr

/-- The data of a variable; `hasSet` says that it has a `set_f`. -/
structure LuaVariable where
  tag : Option UInt8
  access : Access
  /-- `set_f` is there -/
  hasSet : Bool
deriving DecidableEq, Repr

/-- `ConstBitString`, `ConstOctString`, `ConstInt` and so on. -/
def LuaVariable.const (tag : UInt8) : LuaVariable := ⟨some tag, .ro, false⟩

/-- `BitString`, `OctString`, `Int` and so on. -/
def LuaVariable.settable (tag : UInt8) : LuaVariable := ⟨some tag, .rw, true⟩

/-- A key of `entry.indexes`. -/
inductive IndexKey where
  | num (n : ℕ)
  | str (s : List Char)
deriving DecidableEq, Repr

/-- `entry.indexes`: lists of numbers when it is cascaded, and its keys otherwise. -/
inductive Indexes where
  | cascade (dims : List (List ℕ))
  | keys (ks : List IndexKey)
deriving DecidableEq, Repr

/-- The entry of a table. -/
structure LuaEntry where
  /-- variables by their numbers -/
  vars : AList fun _ : ℕ => LuaVariable
  indexes : Indexes

/-- An object of a group. -/
inductive LuaObject where
  | scalar (v : LuaVariable)
  | table (entry : LuaEntry)

/-- The objects of a group by their numbers, in the order of `pairs`. -/
abbrev LuaObjects := AList fun _ : ℕ => LuaObject

/-- A group with the functions of its variables. A variable is named by its object number, or by the
numbers of its table, entry and column. `none` is a raised error. -/
structure LuaGroup (σ : Type) where
  objs : LuaObjects
  /-- `get_f` of a variable: the value and the error status -/
  getF : List ℕ → List ℕ → σ → Option (LuaVal × Option Int32) × σ
  /-- `set_f` of a variable: the error status -/
  setF : List ℕ → List ℕ → LuaVal → σ → Option (Option Int32) × σ

/-! ### Index blocks -/

/-- The dimensions of the instances of a table, or of some scalars. -/
abbrev Block := List (List Index)

/-- The first number of a block. -/
def blockNo : Block → ℕ
  | (.id n :: _) :: _ => n
  | _ => 0

/-- `oid_cmp` on arrays -/
def idsLt : List ℕ → List ℕ → Bool
  | [], [] => false
  | [], _ :: _ => true
  | _ :: _, [] => false
  | x :: xs, y :: ys => if x ≠ y then x < y else idsLt xs ys

/-- The dimensions of `entry.indexes`, sorted. Numbers and arrays cannot be compared. -/
def indexDims : Indexes → Option (List (List Index))
  | .cascade dims => some (dims.map fun d => (d.insertionSort (· ≤ ·)).map .id)
  | .keys ks =>
    let nums := ks.filterMap fun | .num n => some n | .str _ => none
    let arrs := ks.filterMap fun | .num _ => none | .str s => some (digitRuns none s)
    if arrs = [] then some [(nums.insertionSort (· ≤ ·)).map .id]
    else if nums = [] then
      some [(arrs.insertionSort fun a b => idsLt b a = false).map .arr]
    else none

/-- `table_indexes` -/
def tableIndexes (tableNo : ℕ) (entry : LuaEntry) : Option Block :=
  (indexDims entry.indexes).map fun dims =>
    [.id tableNo] :: [.id 1] :: (entry.vars.keys.insertionSort (· ≤ ·)).map .id :: dims

/-- A block of scalars. -/
def scalarIndexes (nos : List ℕ) : Block := [nos.map .id, [.id 0]]

/-- Insertion by the table number. -/
def insertBlock (new : Block) : List Block → List Block
  | [] => [new]
  | b :: bs => if blockNo new < blockNo b then new :: b :: bs else b :: insertBlock new bs

/-- The loop over the objects, with the blocks of the tables and the numbers of the scalars. -/
def collectIndexes : List (Sigma fun _ : ℕ => LuaObject) → List Block → List ℕ →
    Option (List Block × List ℕ)
  | [], blocks, scalars => some (blocks, scalars)
  | ⟨no, .scalar _⟩ :: objs, blocks, scalars => collectIndexes objs blocks (scalars ++ [no])
  | ⟨no, .table entry⟩ :: objs, blocks, scalars =>
    match tableIndexes no entry with
    | none => none
    | some b => collectIndexes objs (insertBlock b blocks) scalars

/-- The loop that inserts the scalars before the tables behind them. `ipairs` comes to the position
`m` of the blocks, which grow under it, and `i` runs ahead. -/
def separateLoop : ℕ → ℕ → ℕ → List Block → List ℕ → List Block × List ℕ
  | 0, _, _, blocks, scalars => (blocks, scalars)
  | fuel + 1, m, i, blocks, scalars =>
    -- the end of `ipairs`, and `i > #group_indexes`
    if blocks.length ≤ m ∨ blocks.length ≤ i then (blocks, scalars)
    else
      let tmp := scalars.takeWhile (· ≤ blockNo (blocks.getD i []))
      if tmp = [] then separateLoop fuel (m + 1) (i + 1) blocks scalars
      else
        separateLoop fuel (m + 1) (i + 2) (blocks.insertIdx i (scalarIndexes tmp))
          (scalars.drop tmp.length)

/-- `mib_group_indexes_generate`; `none` is a raised error. -/
def mibGroupIndexesGenerate (objs : LuaObjects) : Option (List Block) :=
  match collectIndexes objs.entries [] [] with
  | none => none
  | some (blocks, scalars) =>
    let (blocks, scalars) :=
      separateLoop (blocks.length + 1) 0 0 blocks (scalars.insertionSort (· ≤ ·))
    some (blocks ++ if scalars = [] then [] else [scalarIndexes scalars])

/-- What the loop comes to: block by block, with the rest of the scalars at the end. -/
def separateScalars : List Block → List ℕ → List Block
  | [], scalars => if scalars = [] then [] else [scalarIndexes scalars]
  | b :: bs, scalars =>
    let before := scalars.takeWhile (· ≤ blockNo b)
    let rest := b :: separateScalars bs (scalars.dropWhile (· ≤ blockNo b))
    if before = [] then rest else scalarIndexes before :: rest

theorem insertIdx_length_append {α : Type} (l r : List α) (x : α) :
    (l ++ r).insertIdx l.length x = l ++ x :: r := by
  induction l with
  | nil => simp
  | cons a l ih => simp [ih]

/-- **The loop separates the scalars**, and ends within as many rounds as there are tables behind
the position. The induction is over these. -/
theorem separateLoop_eq {fuel m : ℕ} (pre bs : List Block) (scalars : List ℕ)
    (hfuel : bs.length < fuel) (hm : m ≤ pre.length) :
    (separateLoop fuel m pre.length (pre ++ bs) scalars).1 ++
        (if (separateLoop fuel m pre.length (pre ++ bs) scalars).2 = [] then []
          else [scalarIndexes (separateLoop fuel m pre.length (pre ++ bs) scalars).2]) =
      pre ++ separateScalars bs scalars := by
  induction bs generalizing fuel m pre scalars with
  | nil =>
    obtain ⟨fuel, rfl⟩ := Nat.exists_eq_add_one_of_ne_zero (Nat.ne_of_gt hfuel)
    simp [separateLoop, separateScalars]
  | cons b bs ih =>
    obtain ⟨fuel, rfl⟩ := Nat.exists_eq_add_one_of_ne_zero (Nat.ne_of_gt (Nat.zero_lt_of_lt hfuel))
    have hmore : ¬ ((pre ++ b :: bs).length ≤ m ∨ (pre ++ b :: bs).length ≤ pre.length) := by
      simp only [length_append, length_cons]
      omega
    have hget : (pre ++ b :: bs).getD pre.length [] = b := by simp
    have hfuel' : bs.length < fuel := by simpa using hfuel
    have hsplit := takeWhile_append_dropWhile (p := (· ≤ blockNo b)) (l := scalars)
    rw [separateLoop, if_neg hmore, hget, separateScalars]
    -- no scalar comes before the table, or a block of them is inserted there
    by_cases hnone : scalars.takeWhile (· ≤ blockNo b) = []
    · rw [hnone, nil_append] at hsplit
      have hnext := ih (m := m + 1) (pre ++ [b]) scalars hfuel' (by simpa using hm)
      simp only [length_append, length_singleton, append_assoc,
        singleton_append] at hnext
      simpa only [hnone, if_true, hsplit] using hnext
    · set tmp := scalars.takeWhile (· ≤ blockNo b)
      set rest := scalars.dropWhile (· ≤ blockNo b)
      have hdrop : scalars.drop tmp.length = rest := by
        rw [← hsplit]
        exact drop_left
      have hinsert : (pre ++ b :: bs).insertIdx pre.length (scalarIndexes tmp) =
          pre ++ [scalarIndexes tmp, b] ++ bs := by
        rw [append_assoc]
        exact insertIdx_length_append pre _ _
      have hnext := ih (m := m + 1) (pre ++ [scalarIndexes tmp, b]) rest hfuel'
        (by simp only [length_append, length_cons]; omega)
      rw [length_append] at hnext
      simp only [hnone, if_false, hdrop, hinsert]
      simpa using hnext

theorem mibGroupIndexesGenerate_eq (objs : LuaObjects) :
    mibGroupIndexesGenerate objs =
      (collectIndexes objs.entries [] []).map fun (blocks, scalars) =>
        separateScalars blocks (scalars.insertionSort (· ≤ ·)) := by
  rw [mibGroupIndexesGenerate]
  rcases collectIndexes objs.entries [] [] with _ | ⟨blocks, scalars⟩
  · rfl
  · exact congrArg some (separateLoop_eq [] blocks _ (Nat.lt_succ_self _) le_rfl)

/-- `effective_object_index`: the number of dimensions of the block with an object number. -/
def effectiveObjectIndex (tab : List Block) (id : ℕ) : Option ℕ :=
  tab.findSome? fun block => if .id id ∈ block.headD [] then some block.length else none

/-! ### Handlers -/

/-- What `type` gives for a value. -/
inductive LuaType where
  | nil
  | number
  | string
  | table
deriving DecidableEq, Repr

/-- `type` -/
def LuaVal.type : LuaVal → LuaType
  | .nil => .nil
  | .num _ => .number
  | .str _ => .string
  | .tab _ => .table

/-- `ber_tag_match` -/
def berTagMatch (tag : UInt8) : Option LuaType :=
  if tag = asn1TagBool then some .number
  else if tag = asn1TagInt then some .number
  else if tag = asn1TagBitstr then some .string
  else if tag = asn1TagOctstr then some .string
  else if tag = asn1TagNul then some .nil
  else if tag = asn1TagObjid then some .table
  else if tag = asn1TagIpaddr then some .table
  else if tag = asn1TagCnt then some .number
  else if tag = asn1TagGau then some .number
  else if tag = asn1TagTimeticks then some .number
  else if tag = asn1TagOpaq then some .number
  else none

/-- `return_value_check` raises no error. -/
def returnValueCheck (val : LuaVal) (tag : UInt8) : Bool := berTagMatch tag = some val.type

/-- A sub-OID as C reads it from a table. -/
def toOid (s : List ℕ) : Oid := s.map UInt32.ofNat

/-- A variable that a request comes to: its data, its name and the instance. -/
structure LuaTarget where
  /-- data of the variable -/
  var : LuaVariable
  /-- object number, or numbers of table, entry and column -/
  path : List ℕ
  /-- `inst_no` -/
  inst : List ℕ

/-- The variable that SET comes to, or the error status. -/
def setTarget (objs : LuaObjects) (tab : List Block) (s : List ℕ) (tag : UInt8) :
    Except Int32 LuaTarget :=
  match s with
  | [] => .error snmpErrStatNotWritable
  | objNo :: subs =>
    match effectiveObjectIndex tab objNo, objs.lookup objNo with
    | some 2, some (.scalar v) =>
      -- check access
      if v.access = .una ∨ subs ≠ [0] then .error snmpErrStatNoAccess
      -- check type
      else if some tag ≠ v.tag then .error snmpErrStatWrongType
      else .ok ⟨v, [objNo], []⟩
    | some (_ + 4), some (.table entry) =>
      match subs with
      | 1 :: varNo :: inst =>
        match entry.vars.lookup varNo with
        | none => .error snmpErrStatNoAccess
        | some v =>
          -- check access
          if v.access = .una ∨ inst = [] then .error snmpErrStatNoAccess
          -- check type
          else if some tag ≠ v.tag then .error snmpErrStatWrongType
          else .ok ⟨v, [objNo, 1, varNo], inst⟩
      | _ => .error snmpErrStatNoAccess
    | _, _ => .error snmpErrStatNotWritable

/-- `handlers[SNMP_REQ_SET]`. The value is checked after it was set. -/
def luaSet (g : LuaGroup σ) (s : List ℕ) (val : LuaVal) (tag : UInt8) (st : σ) : Reply × σ :=
  match mibGroupIndexesGenerate g.objs with
  | none => (.fail, st)
  | some tab =>
    match setTarget g.objs tab s tag with
    | .error errStat => (.ret errStat (toOid s) val tag, st)
    | .ok t =>
      -- a call of nil without `set_f`
      if t.var.hasSet = false then (.fail, st)
      else
        match g.setF t.path t.inst val st with
        | (none, st) => (.fail, st)
        | (some errStat, st) =>
          if returnValueCheck val tag then (.ret (errStat.getD 0) (toOid s) val tag, st)
          else (.fail, st)

/-- The variable that GET comes to, or the tag of its absence. -/
def getTarget (objs : LuaObjects) (tab : List Block) (s : List ℕ) : Except UInt8 LuaTarget :=
  match s with
  | [] => .error asn1TagNoSuchObj
  | objNo :: subs =>
    match effectiveObjectIndex tab objNo, objs.lookup objNo with
    | some 2, some (.scalar v) =>
      -- check access
      if v.access = .una then .error asn1TagNoSuchObj
      -- check existence
      else if subs ≠ [0] then .error asn1TagNoSuchInst
      else .ok ⟨v, [objNo], []⟩
    | some (_ + 4), some (.table entry) =>
      match subs with
      | 1 :: varNo :: inst =>
        match entry.vars.lookup varNo with
        | none => .error asn1TagNoSuchObj
        | some v =>
          -- check access
          if v.access = .una then .error asn1TagNoSuchObj
          -- check instance existence
          else if inst = [] then .error asn1TagNoSuchInst
          else .ok ⟨v, [objNo, 1, varNo], inst⟩
      | _ => .error asn1TagNoSuchObj
    | _, _ => .error asn1TagNoSuchObj

/-- What is returned for a value, after `return_value_check`. -/
def valueReply (s : List ℕ) (val : LuaVal) (tag : UInt8) (errStat : Option Int32) : Reply :=
  if returnValueCheck val tag then .ret (errStat.getD 0) (toOid s) val tag else .fail

/-- `handlers[SNMP_REQ_GET]` -/
def luaGet (g : LuaGroup σ) (s : List ℕ) (st : σ) : Reply × σ :=
  match mibGroupIndexesGenerate g.objs with
  | none => (.fail, st)
  | some tab =>
    match getTarget g.objs tab s with
    | .error tag => (.ret 0 (toOid s) .nil tag, st)
    | .ok t =>
      match g.getF t.path t.inst st with
      | (none, st) => (.fail, st)
      | (some (val, errStat), st) =>
        match val, t.var.tag with
        | .nil, _ => (.ret 0 (toOid s) .nil asn1TagNoSuchInst, st)
        | _, none => (.ret 0 (toOid s) .nil asn1TagNoSuchInst, st)
        | val, some tag => (valueReply s val tag errStat, st)

/-- Where the loop over the blocks ends: in a block, with the OID and the blocks from there on. -/
inductive BlocksNext where
  | found (blocks : List Block) (oid : List ℕ)
  | nothing
  | raised

/-- The loop over the blocks. The OID is changed in place, so the next block gets it as the one
before has left it. -/
def nextInBlocks : List Block → List ℕ → BlocksNext
  | [], _ => .nothing
  | b :: bs, oid =>
    match groupIndexTableGetnext oid b with
    | .found oid => .found (b :: bs) oid
    | .nothing oid => nextInBlocks bs oid
    | .raised => .raised

/-- The variable of an OID out of the blocks. An OID of another length is an error. -/
def nextTarget (objs : LuaObjects) : List ℕ → Option LuaTarget
  | [scalarNo, _] =>
    match objs.lookup scalarNo with
    | some (.scalar v) => some ⟨v, [scalarNo], []⟩
    | _ => none
  | tableNo :: 1 :: varNo :: i :: inst =>
    match objs.lookup tableNo with
    | some (.table entry) =>
      (entry.vars.lookup varNo).map fun v => ⟨v, [tableNo, 1, varNo], i :: inst⟩
    | _ => none
  | _ => none

/-- The OID to go on with behind a variable without a value: the next column of a table. -/
def skipColumn : List ℕ → List ℕ
  | tableNo :: entryNo :: varNo :: _ :: inst => tableNo :: entryNo :: (varNo + 1) :: 0 :: inst
  | oid => oid

/-- The loop of GETNEXT until there is a value. -/
def getnextLoop (g : LuaGroup σ) : ℕ → List Block → List ℕ → σ → Reply × σ
  | 0, _, _, st => (.fail, st)
  | fuel + 1, blocks, oid, st =>
    match nextInBlocks blocks oid with
    | .raised => (.fail, st)
    -- not belong to this group
    | .nothing => (.ret 0 [] .nil asn1TagNoSuchObj, st)
    | .found blocks oid =>
      match nextTarget g.objs oid with
      | none => (.fail, st)
      | some t =>
        match g.getF t.path t.inst st with
        | (none, st) => (.fail, st)
        | (some (val, errStat), st) =>
          match t.var.tag with
          | none => getnextLoop g fuel blocks (skipColumn oid) st
          | some tag =>
            -- an unaccessible node is ignored
            if val = .nil ∨ t.var.access = .una then
              getnextLoop g fuel blocks (skipColumn oid) st
            else (valueReply oid val tag errStat, st)

/-- The number of indexes in a block, with one more. -/
def blockSize (b : Block) : ℕ := (b.map List.length).sum + 1

/-- `handlers[SNMP_REQ_GETNEXT]`, with fuel for every index of the group. -/
def luaGetnext (g : LuaGroup σ) (s : List ℕ) (st : σ) : Reply × σ :=
  match mibGroupIndexesGenerate g.objs with
  | none => (.fail, st)
  | some tab => getnextLoop g ((tab.map blockSize).sum + 1) tab s st

/-- `mib_search_handler` of a group -/
def mibSearchHandler (g : LuaGroup σ) (request : Request) (s : Oid)
    (arg : Option (LuaVal × UInt8)) (st : σ) : Reply × σ :=
  match request, arg with
  | .get, _ => luaGet g (s.map UInt32.toNat) st
  | .getnext, _ => luaGetnext g (s.map UInt32.toNat) st
  | .set, some (val, tag) => luaSet g (s.map UInt32.toNat) val tag st
  -- a SET has a value
  | .set, none => (.fail, st)

/-- The handlers that `register_mib_group` registers, by their references. -/
def luaHandlers (groups : Int → LuaGroup σ) : Handlers σ where
  call callback := mibSearchHandler (groups callback)

/-! ### The blocks of a group -/

/-- The object numbers of a block. -/
def heads (b : Block) : List ℕ := (b.headD []).flatMap Index.ids

/-- The sorted column numbers of a table. -/
def LuaEntry.cols (entry : LuaEntry) : List ℕ := entry.vars.keys.insertionSort (· ≤ ·)

theorem LuaEntry.cols_sorted (entry : LuaEntry) : entry.cols.Pairwise (· ≤ ·) :=
  pairwise_insertionSort _ _

theorem LuaEntry.cols_nodup (entry : LuaEntry) : entry.cols.Nodup :=
  (perm_insertionSort _ _).nodup_iff.mpr entry.vars.keys_nodup

variable {entry : LuaEntry}

theorem LuaEntry.mem_cols {varNo : ℕ} : varNo ∈ entry.cols ↔ varNo ∈ entry.vars := by
  rw [cols, mem_insertionSort, AList.mem_keys]

variable {b : Block}

/-- The dimensions of a table: its number, the one entry, the columns, and those of the rows. -/
theorem tableIndexes_eq_some {tableNo : ℕ} :
    tableIndexes tableNo entry = some b ↔ ∃ dims, indexDims entry.indexes = some dims ∧
      b = [.id tableNo] :: [.id 1] :: entry.cols.map .id :: dims := by
  simp [tableIndexes, LuaEntry.cols, eq_comm]

/-- **What a block is made from**: some scalars of the group, or a table of it. -/
inductive BlockOf (objs : LuaObjects) : Block → Prop
  | scalars (nos : List ℕ) (hsort : nos.Pairwise (· < ·))
      (hobj : ∀ no ∈ nos, ∃ v, objs.lookup no = some (.scalar v)) : BlockOf objs (scalarIndexes nos)
  | table (tableNo : ℕ) (entry : LuaEntry) (b : Block)
      (hobj : objs.lookup tableNo = some (.table entry))
      (hb : tableIndexes tableNo entry = some b) : BlockOf objs b

@[simp] theorem heads_scalarIndexes (nos : List ℕ) : heads (scalarIndexes nos) = nos := by
  simp [heads, scalarIndexes, flatMap_map, Index.ids]

theorem heads_tableIndexes {tableNo : ℕ} (h : tableIndexes tableNo entry = some b) :
    heads b = [tableNo] ∧ blockNo b = tableNo := by
  obtain ⟨dims, -, rfl⟩ := tableIndexes_eq_some.mp h
  exact ⟨rfl, rfl⟩

theorem insertBlock_perm (new : Block) (blocks : List Block) :
    (insertBlock new blocks).Perm (new :: blocks) := by
  induction blocks with
  | nil => exact List.Perm.refl _
  | cons b bs ih =>
    rw [insertBlock]
    split
    · exact List.Perm.refl _
    · exact (ih.cons b).trans (List.Perm.swap new b bs)

variable {blocks : List Block}

theorem insertBlock_sorted (new : Block) (h : (blocks.map blockNo).Pairwise (· ≤ ·)) :
    ((insertBlock new blocks).map blockNo).Pairwise (· ≤ ·) := by
  induction blocks with
  | nil => simp [insertBlock]
  | cons b bs ih =>
    rw [insertBlock]
    obtain ⟨hb, hbs⟩ := pairwise_cons.mp h
    split
    · next hlt =>
        refine pairwise_cons.mpr ⟨fun n hn => ?_, h⟩
        rcases mem_cons.mp hn with rfl | hn
        · exact hlt.le
        · exact hlt.le.trans (hb n hn)
    · next hge =>
        refine pairwise_cons.mpr ⟨fun n hn => ?_, ih hbs⟩
        rcases mem_cons.mp (((insertBlock_perm new bs).map blockNo).mem_iff.mp hn) with
          rfl | hn
        · exact not_lt.mp hge
        · exact hb n hn

/-- What the loop over the objects has collected from the numbers `seen`. -/
structure Collected (objs : LuaObjects) (seen : List ℕ) (blocks : List Block)
    (scalars : List ℕ) : Prop where
  table : ∀ b ∈ blocks, ∃ tableNo entry, objs.lookup tableNo = some (.table entry) ∧
    tableIndexes tableNo entry = some b
  scalar : ∀ no ∈ scalars, ∃ v, objs.lookup no = some (.scalar v)
  sorted : (blocks.map blockNo).Pairwise (· ≤ ·)
  perm : (blocks.map blockNo ++ scalars).Perm seen

variable {objs : LuaObjects}

theorem collectIndexes_collects {es : List (Sigma fun _ : ℕ => LuaObject)}
    (hes : ∀ e ∈ es, objs.lookup e.1 = some e.2) {seen scalars' : List ℕ} {blocks' : List Block}
    (hc : Collected objs seen blocks scalars)
    (h : collectIndexes es blocks scalars = some (blocks', scalars')) :
    Collected objs (seen ++ es.keys) blocks' scalars' := by
  induction es generalizing seen blocks scalars with
  | nil =>
    rw [collectIndexes, some.injEq, Prod.mk.injEq] at h
    obtain ⟨rfl, rfl⟩ := h
    simpa using hc
  | cons e es ih =>
    obtain ⟨no, obj⟩ := e
    have hobj : objs.lookup no = some obj := hes _ mem_cons_self
    have hes' := fun e he => hes e (mem_cons_of_mem _ he)
    have hseen : seen ++ List.keys (⟨no, obj⟩ :: es) = seen ++ [no] ++ es.keys := by simp
    rw [hseen]
    cases obj with
    | scalar v =>
      rw [collectIndexes] at h
      refine ih hes' ⟨hc.table, fun n hn => ?_, hc.sorted, ?_⟩ h
      · rcases mem_append.mp hn with hn | hn
        · exact hc.scalar n hn
        · rw [mem_singleton.mp hn]
          exact ⟨v, hobj⟩
      · rw [← append_assoc]
        exact hc.perm.append_right [no]
    | table entry =>
      rw [collectIndexes] at h
      cases hb : tableIndexes no entry with
      | none => simp [hb] at h
      | some b =>
        simp only [hb] at h
        have hperm := insertBlock_perm b blocks
        refine ih hes' ⟨fun b' hb' => ?_, hc.scalar, insertBlock_sorted b hc.sorted, ?_⟩ h
        · rcases mem_cons.mp (hperm.mem_iff.mp hb') with rfl | hb'
          · exact ⟨no, entry, hobj, hb⟩
          · exact hc.table b' hb'
        · have hmap : ((insertBlock b blocks).map blockNo).Perm
              (no :: blocks.map blockNo) := by
            simpa [(heads_tableIndexes hb).2] using hperm.map blockNo
          exact ((hmap.append_right scalars).trans (hc.perm.cons no)).trans
            (perm_append_singleton no seen).symm

/-- The blocks are those of the tables, and blocks of scalars in between. -/
theorem mem_separateScalars (h : b ∈ separateScalars blocks scalars) :
    b ∈ blocks ∨ ∃ nos : List ℕ, nos.Sublist scalars ∧ b = scalarIndexes nos := by
  induction blocks generalizing scalars with
  | nil =>
    rw [separateScalars] at h
    split at h
    · cases h
    · exact .inr ⟨scalars, List.Sublist.refl _, mem_singleton.mp h⟩
  | cons b' bs ih =>
    have hrest : b ∈ b' :: separateScalars bs (scalars.dropWhile (· ≤ blockNo b')) →
        b ∈ b' :: bs ∨ ∃ nos : List ℕ, nos.Sublist scalars ∧ b = scalarIndexes nos := by
      intro hmem
      rcases mem_cons.mp hmem with rfl | hmem
      · exact .inl mem_cons_self
      · rcases ih hmem with hmem | ⟨nos, hsub, hb⟩
        · exact .inl (mem_cons_of_mem _ hmem)
        · exact .inr ⟨nos, hsub.trans (dropWhile_sublist _), hb⟩
    rw [separateScalars] at h
    split at h
    · exact hrest h
    · rcases mem_cons.mp h with rfl | h
      · exact .inr ⟨_, takeWhile_sublist _, rfl⟩
      · exact hrest h

/-- The object numbers of the blocks, with the scalars where they belong. -/
def mergeNos : List ℕ → List ℕ → List ℕ
  | [], scalars => scalars
  | t :: ts, scalars => scalars.takeWhile (· ≤ t) ++ t :: mergeNos ts (scalars.dropWhile (· ≤ t))

theorem heads_separateScalars (hb : ∀ b ∈ blocks, heads b = [blockNo b]) (scalars : List ℕ) :
    (separateScalars blocks scalars).flatMap heads = mergeNos (blocks.map blockNo) scalars := by
  induction blocks generalizing scalars with
  | nil =>
    rw [separateScalars, map_nil, mergeNos]
    split
    · next h => simp [h]
    · simp
  | cons b bs ih =>
    obtain ⟨hhead, hbs⟩ := forall_mem_cons.mp hb
    rw [separateScalars, map_cons, mergeNos, ← ih hbs]
    split
    · next h => simp [h, hhead]
    · simp [hhead]

theorem mergeNos_perm (ts scalars : List ℕ) : (mergeNos ts scalars).Perm (ts ++ scalars) := by
  induction ts generalizing scalars with
  | nil => exact List.Perm.refl _
  | cons t ts ih =>
    have hback : (scalars.dropWhile (· ≤ t) ++ scalars.takeWhile (· ≤ t)).Perm scalars := by
      refine perm_append_comm.trans ?_
      rw [takeWhile_append_dropWhile]
    have hrest := ((ih (scalars.dropWhile (· ≤ t))).cons t).append_left
      (scalars.takeWhile (· ≤ t))
    refine (hrest.trans perm_append_comm).trans ?_
    rw [← cons_append, append_assoc]
    exact hback.append_left (t :: ts)

theorem lt_of_mem_dropWhile {t : ℕ} (hs : scalars.Pairwise (· ≤ ·)) {n : ℕ}
    (hn : n ∈ scalars.dropWhile (· ≤ t)) : t < n := by
  induction scalars with
  | nil => cases hn
  | cons m scalars ih =>
    obtain ⟨hm, hs'⟩ := pairwise_cons.mp hs
    by_cases hle : m ≤ t
    · rw [dropWhile_cons_of_pos (by simpa using hle)] at hn
      exact ih hs' hn
    · rw [dropWhile_cons_of_neg (by simpa using hle)] at hn
      have hlt : t < m := not_le.mp hle
      rcases mem_cons.mp hn with rfl | hn
      · exact hlt
      · exact hlt.trans_le (hm n hn)

theorem mergeNos_sorted {ts : List ℕ} (hts : ts.Pairwise (· ≤ ·)) (hs : scalars.Pairwise (· ≤ ·)) :
    (mergeNos ts scalars).Pairwise (· ≤ ·) := by
  induction ts generalizing scalars with
  | nil => exact hs
  | cons t ts ih =>
    obtain ⟨ht, hts'⟩ := pairwise_cons.mp hts
    have hdrop : (scalars.dropWhile (· ≤ t)).Pairwise (· ≤ ·) :=
      hs.sublist (dropWhile_sublist _)
    have hbehind : ∀ n ∈ mergeNos ts (scalars.dropWhile (· ≤ t)), t ≤ n := by
      intro n hn
      rcases mem_append.mp ((mergeNos_perm ts _).mem_iff.mp hn) with hn | hn
      · exact ht n hn
      · exact (lt_of_mem_dropWhile hs hn).le
    have hbefore : ∀ n ∈ scalars.takeWhile (· ≤ t), n ≤ t := by
      intro n hn
      simpa using all_eq_true.mp all_takeWhile n hn
    rw [mergeNos, pairwise_append, pairwise_cons]
    refine ⟨hs.sublist (takeWhile_sublist _), ⟨hbehind, ih hts' hdrop⟩, ?_⟩
    intro n hn m hm
    rcases mem_cons.mp hm with rfl | hm
    · exact hbefore n hn
    · exact (hbefore n hn).trans (hbehind m hm)

variable {tab : List Block}

/-- The generated blocks come out of the loop over the objects. -/
theorem mibGroupIndexesGenerate_collected (h : mibGroupIndexesGenerate objs = some tab) :
    ∃ blocks scalars, collectIndexes objs.entries [] [] = some (blocks, scalars) ∧
      Collected objs objs.keys blocks scalars ∧
        tab = separateScalars blocks (scalars.insertionSort (· ≤ ·)) := by
  rw [mibGroupIndexesGenerate_eq] at h
  cases hcoll : collectIndexes objs.entries [] [] with
  | none => simp [hcoll] at h
  | some res =>
    obtain ⟨blocks, scalars⟩ := res
    simp only [hcoll, map_some, some.injEq] at h
    have hstart : Collected objs [] [] [] := ⟨by simp, by simp, by simp, by simp⟩
    have hc := collectIndexes_collects (fun e he => AList.mem_lookup_iff.mpr he) hstart hcoll
    rw [nil_append] at hc
    exact ⟨blocks, scalars, rfl, hc, h.symm⟩

/-- The generated blocks: what each of them is made from, and their object numbers. -/
theorem mibGroupIndexesGenerate_spec (h : mibGroupIndexesGenerate objs = some tab) :
    (∀ b ∈ tab, BlockOf objs b) ∧ (tab.flatMap heads).Pairwise (· < ·) ∧
      (tab.flatMap heads).Perm objs.keys := by
  obtain ⟨blocks, scalars, -, hc, rfl⟩ := mibGroupIndexesGenerate_collected h
  set sorted := scalars.insertionSort (· ≤ ·) with hsorted
  have hsort : sorted.Pairwise (· ≤ ·) := pairwise_insertionSort _ _
  have hheads := heads_separateScalars (fun b hb => by
    obtain ⟨tableNo, entry, -, hb⟩ := hc.table b hb
    rw [(heads_tableIndexes hb).1, (heads_tableIndexes hb).2]) sorted
  have hperm : (mergeNos (blocks.map blockNo) sorted).Perm objs.keys :=
    ((mergeNos_perm _ _).trans ((perm_insertionSort _ _).append_left _)).trans hc.perm
  have hnodup : (mergeNos (blocks.map blockNo) sorted).Nodup :=
    hperm.nodup_iff.mpr objs.keys_nodup
  have hsorted_nodup : sorted.Nodup := by
    have hall := hc.perm.nodup_iff.mpr objs.keys_nodup
    exact (perm_insertionSort _ _).nodup_iff.mpr (nodup_append.mp hall).2.1
  have strict : ∀ {l : List ℕ}, l.Pairwise (· ≤ ·) → l.Nodup → l.Pairwise (· < ·) :=
    fun hle hne => (hle.and hne).imp fun h => lt_of_le_of_ne h.1 h.2
  rw [hheads]
  refine ⟨fun b hb => ?_, ?_, hperm⟩
  · rcases mem_separateScalars hb with hb | ⟨nos, hsub, rfl⟩
    · obtain ⟨tableNo, entry, hobj, hb⟩ := hc.table b hb
      exact .table tableNo entry b hobj hb
    · refine .scalars nos ((strict hsort hsorted_nodup).sublist hsub) fun no hno => ?_
      exact hc.scalar no ((mem_insertionSort _).mp (hsub.subset hno))
  · exact strict (mergeNos_sorted hc.sorted hsort) hnodup

/-- Every object number is in a block. -/
theorem exists_block (h : mibGroupIndexesGenerate objs = some tab) (hno : no ∈ objs) :
    ∃ b ∈ tab, no ∈ heads b :=
  mem_flatMap.mp ((mibGroupIndexesGenerate_spec h).2.2.mem_iff.mpr (AList.mem_keys.mp hno))

/-- **The object numbers ascend**: those of the blocks before a block are smaller, and those of the
blocks behind it are greater. -/
theorem generate_ascending (h : mibGroupIndexesGenerate objs = some tab) (hb : b ∈ tab)
    (hno : no ∈ heads b) :
    ∃ l r, tab = l ++ b :: r ∧ (∀ b' ∈ l, ∀ n ∈ heads b', n < no) ∧
      ∀ b' ∈ r, ∀ n ∈ heads b', no < n := by
  obtain ⟨-, hasc, -⟩ := mibGroupIndexesGenerate_spec h
  obtain ⟨l, r, rfl⟩ := append_of_mem hb
  obtain ⟨-, hbr, hl⟩ := pairwise_append.mp (pairwise_flatMap.mp hasc).2
  refine ⟨l, r, rfl, fun b' hb' n hn => ?_, fun b' hb' n hn => ?_⟩
  · exact hl b' hb' b mem_cons_self n hn no hno
  · exact (pairwise_cons.mp hbr).1 b' hb' no hno n hn

/-- The first dimension of a block has its object numbers. -/
theorem BlockOf.mem_heads (h : BlockOf objs b) : .id no ∈ b.headD [] ↔ no ∈ heads b := by
  cases h with
  | scalars nos =>
    rw [heads_scalarIndexes]
    simp [scalarIndexes]
  | table tableNo entry _ _ hb =>
    obtain ⟨dims, -, rfl⟩ := tableIndexes_eq_some.mp hb
    simp [heads, Index.ids]

/-- The number of dimensions of an object is that of its block. -/
theorem effectiveObjectIndex_of_mem (h : mibGroupIndexesGenerate objs = some tab) (hb : b ∈ tab)
    (hno : no ∈ heads b) : effectiveObjectIndex tab no = some b.length := by
  have hof := (mibGroupIndexesGenerate_spec h).1
  obtain ⟨l, r, rfl, hl, -⟩ := generate_ascending h hb hno
  have hnone : ∀ b' ∈ l, ¬ .id no ∈ b'.headD [] := by
    intro b' hb' hmem
    have := hl b' hb' no (((hof b' (by simp [hb'])).mem_heads).mp hmem)
    exact lt_irrefl _ this
  have hpos : .id no ∈ b.headD [] := (hof b hb).mem_heads.mpr hno
  rw [effectiveObjectIndex, findSome?_append, findSome?_eq_none_iff.mpr, none_or,
    findSome?_cons, if_pos hpos]
  intro b' hb'
  rw [if_neg (hnone b' hb')]

end SmithSnmp
