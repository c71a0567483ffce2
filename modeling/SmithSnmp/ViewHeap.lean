import Mathlib.Algebra.Order.BigOperators.Group.List
import Mathlib.Data.List.Perm.Subperm
import SmithSnmp.Lib.Ring
import SmithSnmp.MibView

/-!
# The Lists of Views in Memory

`core/mib_view.c` keeps the views of a principal in circular lists of `core/list.h`. A
`struct community_view` (or `struct user_view`) binds a principal to a view and has two list
nodes: with `vlink` it stands in a list of the view, with `clink` (or `ulink`) in one of the two
lists of the principal. A view is shared: `view_create` looks for its OID before it makes one.

Here objects have addresses, `xmalloc` gives any address that is not in use and `free` takes it
back. An access to memory that does not exist is a fault. The text is the same for communities and
for users, and one definition with the kind of the principal stands for both copies.

The lists that are linked with `next` only (`mib_views`, `mib_communities`, `mib_users`) are lists
of objects in the order of the links.

## Main results

* `ViewHeap.Models`: what the lists of the principals hold, read off the memory, where no two
  views have one OID and every binding stands in exactly one list on each side.
* `ViewHeap.Models.viewBind`, `ViewHeap.Models.viewRemove`: binding and removing never touch freed
  memory, and do to the memory what `viewBind` and `[]` are to the lists of `SmithSnmp.MibView`.
* `ViewHeap.Models.answers`: the two readers find in the memory what is in the lists.
-/

namespace SmithSnmp

open List Lib Function

variable {α : Type} {n : ℕ}

/-! ### Objects and nodes -/

/-- The two kinds of principals. -/
inductive Principal where
  | community
  | user
deriving DecidableEq, Repr

/-- The list heads inside views and principals. -/
inductive ListId where
  /-- `communities` or `users` of a view -/
  | view (k : Principal) (view : ℕ)
  /-- `ro_views` or `rw_views` of a principal -/
  | owner (k : Principal) (owner : ℕ) (aces : MibAces)
deriving DecidableEq, Repr

/-- The addresses of `struct list_head` objects. -/
inductive NodeAddr where
  /-- a list head -/
  | head (i : ListId)
  /-- `vlink` of a binding -/
  | vlink (bind : ℕ)
  /-- `clink` or `ulink` of a binding -/
  | plink (bind : ℕ)
deriving DecidableEq, Repr

/-- `struct mib_view` at its address -/
structure ViewObj where
  addr : ℕ
  oid : Oid
deriving DecidableEq, Repr

/-- `struct community_view` and `struct user_view` at their addresses -/
structure BindObj where
  /-- which of the two -/
  kind : Principal
  addr : ℕ
  /-- pointer to the view -/
  view : ℕ
  /-- pointer to the community or user -/
  owner : ℕ
deriving DecidableEq, Repr

/-- The memory of the views and the bindings. -/
structure ViewHeap where
  /-- all list nodes -/
  nodes : Links NodeAddr
  /-- `mib_views` -/
  views : List ViewObj
  binds : List BindObj

/-- `xmalloc`: some address that is not in use. -/
structure Xmalloc where
  /-- the address it returns -/
  pick : List ℕ → ℕ
  /-- which is free -/
  fresh : ∀ used, pick used ∉ used

/-- There is one: it adds up the addresses in use. -/
instance : Inhabited Xmalloc where
  default := ⟨fun used => used.sum + 1, fun _ h => Nat.not_succ_le_self _ (le_sum_of_mem h)⟩

/-- Why a call does not return. -/
inductive Stop where
  /-- access to memory that does not exist -/
  | fault
  /-- a loop that never ends -/
  | spins
deriving DecidableEq, Repr

/-- A pointer is followed. -/
def deref : Option α → Except Stop α
  | none => .error .fault
  | some a => .ok a

@[simp] theorem deref_some (a : α) : deref (some a) = .ok a := rfl

@[simp] theorem Stop.ok_bind {β : Type} (a : α) (f : α → Except Stop β) :
    ((.ok a : Except Stop α) >>= f) = f a := rfl

/-! ### `list.h` -/

/-- `list_add` -/
def listAdd (m : Links NodeAddr) (new head : NodeAddr) : Option (Links NodeAddr) :=
  (m.readNext head).bind fun next => m.insertBetween new head next

/-- `list_add_tail` -/
def listAddTail (m : Links NodeAddr) (new head : NodeAddr) : Option (Links NodeAddr) :=
  (m.readPrev head).bind fun prev => m.insertBetween new prev head

/-- `list_del` -/
def listDel (m : Links NodeAddr) (entry : NodeAddr) : Option (Links NodeAddr) := m.unlink entry

/-- `list_entry` of a node in a list of a principal: the address of its binding. -/
def listEntry : NodeAddr → Option ℕ
  | .plink bind => some bind
  | _ => none

namespace ViewHeap

/-- The nodes are edited. -/
def link (H : ViewHeap) (f : Links NodeAddr → Option (Links NodeAddr)) : Except Stop ViewHeap :=
  (deref (f H.nodes)).map fun nodes => { H with nodes := nodes }

/-- The view at an address. -/
def viewAt (H : ViewHeap) (v : ℕ) : Except Stop ViewObj :=
  deref (H.views.find? fun w => w.addr = v)

/-- The binding of a node and its view. -/
def entry (H : ViewHeap) (curr : NodeAddr) : Except Stop (BindObj × ViewObj) := do
  let b ← deref (listEntry curr)
  let cv ← deref (H.binds.find? fun c => c.addr = b)
  let v ← H.viewAt cv.view
  .ok (cv, v)

/-- `free` of a binding -/
def freeBind (H : ViewHeap) (b : ℕ) : ViewHeap :=
  { H with
    nodes := (H.nodes.setLive (.vlink b) false).setLive (.plink b) false
    binds := H.binds.filter fun c => c.addr ≠ b }

/-- A binding in new memory. -/
def newBind (H : ViewHeap) (c : BindObj) : ViewHeap :=
  { H with
    nodes := (H.nodes.setLive (.vlink c.addr) true).setLive (.plink c.addr) true
    binds := c :: H.binds }

/-- Enough rounds for any list. -/
def rounds (H : ViewHeap) : ℕ := H.binds.length + 1

/-! ### `mib_view.c` -/

/-- `INIT_LIST_HEAD` of two new heads. -/
def newHeads (H : ViewHeap) (i j : ListId) : Except Stop ViewHeap := do
  let H := { H with nodes := (H.nodes.setLive (.head i) true).setLive (.head j) true }
  let H ← H.link (·.initNode (.head i))
  H.link (·.initNode (.head j))

/-- `view_create` -/
def viewCreate (malloc : Xmalloc) (H : ViewHeap) (oid : Oid) : Except Stop (ViewObj × ViewHeap) :=
  match H.views.find? fun v => oidCmp v.oid oid = 0 with
  | some v => .ok (v, H)
  | none => do
      let v := ⟨malloc.pick (H.views.map ViewObj.addr), oid⟩
      let H ← H.newHeads (.view .community v.addr) (.view .user v.addr)
      .ok (v, { H with views := v :: H.views })

/-- The loop of `community_view_filter` and `user_view_filter`. -/
def viewFilterLoop (oid : Oid) (views : ListId) :
    ℕ → NodeAddr → ViewHeap → Except Stop (Bool × ViewHeap)
  | 0, _, _ => .error .spins
  | fuel + 1, curr, H => do
      -- `list_for_each_safe` reads the next node before it looks at this one
      let next ← deref (H.nodes.readNext curr)
      if curr = .head views then .ok (false, H)
      else do
        let (cv, v) ← H.entry curr
        if 0 < oidCover v.oid oid then .ok (true, H)
        else if oidCover v.oid oid < 0 then do
          let H ← H.link (listDel · (.plink cv.addr))
          let H ← H.link (listDel · (.vlink cv.addr))
          viewFilterLoop oid views fuel next (H.freeBind cv.addr)
        else viewFilterLoop oid views fuel next H

/-- `community_view_filter` and `user_view_filter` -/
def viewFilter (H : ViewHeap) (oid : Oid) (views : ListId) :
    Except Stop (Bool × ViewHeap) := do
  let first ← deref (H.nodes.readNext (.head views))
  viewFilterLoop oid views H.rounds first H

/-- The loop of `community_view_add` and `user_view_add`: the new node goes before the first view
that compares greater, or before the head. -/
def viewAddLoop (oid : Oid) (views : ListId) (new : NodeAddr) :
    ℕ → NodeAddr → ViewHeap → Except Stop ViewHeap
  | 0, _, _ => .error .spins
  | fuel + 1, curr, H =>
    if curr = .head views then H.link (listAddTail · new (.head views))
    else do
      let (_, v) ← H.entry curr
      if 0 < oidCmp v.oid oid then H.link (listAddTail · new curr)
      else do
        let next ← deref (H.nodes.readNext curr)
        viewAddLoop oid views new fuel next H

/-- `community_view_add` and `user_view_add` -/
def viewAdd (malloc : Xmalloc) (H : ViewHeap) (k : Principal) (oid : Oid) (owner : ℕ)
    (v : ViewObj) (views : ListId) : Except Stop ViewHeap := do
  let b := malloc.pick (H.binds.map BindObj.addr)
  let H := H.newBind ⟨k, b, v.addr, owner⟩
  let H ← H.link (·.initNode (.vlink b))
  let H ← H.link (·.initNode (.plink b))
  let H ← H.link (listAdd · (.vlink b) (.head (.view k v.addr)))
  let first ← deref (H.nodes.readNext (.head views))
  viewAddLoop oid views (.plink b) H.rounds first H

/-- The loop of `community_view_remove` and `user_view_remove`. -/
def viewRemoveLoop (views : ListId) : ℕ → NodeAddr → ViewHeap → Except Stop ViewHeap
  | 0, _, _ => .error .spins
  | fuel + 1, curr, H => do
      let next ← deref (H.nodes.readNext curr)
      if curr = .head views then .ok H
      else do
        let b ← deref (listEntry curr)
        let H ← H.link (listDel · (.vlink b))
        let H ← H.link (listDel · (.plink b))
        viewRemoveLoop views fuel next (H.freeBind b)

/-- `community_view_remove` and `user_view_remove` -/
def viewRemove (H : ViewHeap) (views : ListId) : Except Stop ViewHeap := do
  let first ← deref (H.nodes.readNext (.head views))
  viewRemoveLoop views H.rounds first H

/-- `community_view_bind` and `user_view_bind` -/
def viewBind (malloc : Xmalloc) (H : ViewHeap) (k : Principal) (oid : Oid) (owner : ℕ)
    (aces : MibAces) : Except Stop ViewHeap := do
  let (filtered, H) ← H.viewFilter oid (.owner k owner aces)
  if filtered then .ok H
  else do
    let (v, H) ← H.viewCreate malloc oid
    H.viewAdd malloc k oid owner v (.owner k owner aces)

/-- The loop of `mib_community_view_cover` and `mib_user_view_cover`. -/
def viewCoverLoop (H : ViewHeap) (oid : Oid) (views : ListId) : ℕ → NodeAddr → Except Stop Bool
  | 0, _ => .error .spins
  | fuel + 1, pos =>
    if pos = .head views then .ok false
    else do
      let (_, v) ← H.entry pos
      if 0 < oidCover v.oid oid then .ok true
      else do
        let next ← deref (H.nodes.readNext pos)
        viewCoverLoop H oid views fuel next

/-- `mib_community_view_cover` and `mib_user_view_cover` -/
def viewCover (H : ViewHeap) (k : Principal) (owner : ℕ) (aces : MibAces) (oid : Oid) :
    Except Stop Bool := do
  let first ← deref (H.nodes.readNext (.head (.owner k owner aces)))
  H.viewCoverLoop oid (.owner k owner aces) H.rounds first

/-- The loop of `mib_community_next_view` and `mib_user_next_view`. -/
def nextViewLoop (H : ViewHeap) (views : ListId) (v : Option ℕ) :
    ℕ → NodeAddr → Except Stop (Option ViewObj)
  | 0, _ => .error .spins
  | fuel + 1, pos =>
    if pos = .head views then .ok none
    else do
      let (cv, _) ← H.entry pos
      if v = none then do
        let first ← deref (H.nodes.readNext (.head views))
        (H.entry first).map fun e => some e.2
      else do
        let next ← deref (H.nodes.readNext pos)
        -- the views are compared as pointers
        if v = some cv.view ∧ next ≠ .head views then (H.entry next).map fun e => some e.2
        else nextViewLoop H views v fuel next

/-- `mib_community_next_view` and `mib_user_next_view` -/
def nextView (H : ViewHeap) (k : Principal) (owner : ℕ) (aces : MibAces) (v : Option ℕ) :
    Except Stop (Option ViewObj) := do
  let first ← deref (H.nodes.readNext (.head (.owner k owner aces)))
  H.nextViewLoop (.owner k owner aces) v H.rounds first

end ViewHeap

/-! ### The shape of the memory -/

/-- The node of a binding in a list. -/
def ListId.link : ListId → ℕ → NodeAddr
  | .view _ _, b => .vlink b
  | .owner _ _ _, b => .plink b

/-- The bindings in each list. -/
abbrev Bindings := ListId → List BindObj

/-- The nodes of the bindings in a list. -/
def ListId.nodes (i : ListId) (cs : List BindObj) : List NodeAddr := cs.map fun c => i.link c.addr

/-- The lists `S` are rings in the memory. -/
abbrev BindRings (m : Links NodeAddr) (dom : ListId → Prop) (S : Bindings) : Prop :=
  Rings m dom .head fun i => i.nodes (S i)

@[simp] theorem ListId.nodes_nil (i : ListId) : i.nodes [] = [] := rfl

@[simp] theorem ListId.nodes_cons (i : ListId) (c : BindObj) (cs : List BindObj) :
    i.nodes (c :: cs) = i.link c.addr :: i.nodes cs := rfl

@[simp] theorem ListId.nodes_append (i : ListId) (l r : List BindObj) :
    i.nodes (l ++ r) = i.nodes l ++ i.nodes r := map_append

@[simp] theorem ListId.link_ne_head (i j : ListId) (b : ℕ) : i.link b ≠ .head j := by
  cases i <;> exact nofun

variable {i j : ListId}

theorem ListId.link_notMem {cs : List BindObj} {b : ℕ}
    (h : i.link b = j.link b → ∀ c ∈ cs, c.addr ≠ b) :
    i.link b ∉ NodeAddr.head j :: j.nodes cs := by
  intro hmem
  obtain ⟨c, hc, hb⟩ := mem_map.mp
    ((mem_cons.mp hmem).resolve_left (ListId.link_ne_head i j b))
  have hcb : c.addr = b := by cases i <;> cases j <;> simp_all [ListId.link]
  exact h (hcb ▸ hb.symm) c hc hcb

namespace ViewHeap

variable {H H' : ViewHeap} {owned : Principal → ℕ → Prop} {S S' : Bindings}
  {k : Principal} {p : ℕ} {aces : MibAces} {oid : Oid} {c : BindObj} {l r : List BindObj}

/-- The lists that exist, `owned` are the principals. -/
def HasList (H : ViewHeap) (owned : Principal → ℕ → Prop) : ListId → Prop
  | .view _ v => v ∈ H.views.map ViewObj.addr
  | .owner k p _ => owned k p

theorem hasList_congr (h : H'.views = H.views) : H'.HasList owned = H.HasList owned := by
  funext i
  cases i <;> simp [HasList, h]

/-- The OID of the view of a binding. -/
def oidOf (H : ViewHeap) (c : BindObj) : Oid :=
  ((H.views.find? fun v => v.addr = c.view).map ViewObj.oid).getD []

theorem oidOf_congr (h : H'.views = H.views) : H'.oidOf = H.oidOf := by
  funext c
  rw [oidOf, oidOf, h]

/-- The view of a binding. -/
def viewOf (H : ViewHeap) (c : BindObj) : ViewObj := ⟨c.view, H.oidOf c⟩

@[simp] theorem viewOf_oid (H : ViewHeap) (c : BindObj) : (H.viewOf c).oid = H.oidOf c := rfl

/-- The memory consists of the lists `S`. -/
structure Shaped (H : ViewHeap) (owned : Principal → ℕ → Prop) (S : Bindings) : Prop where
  /-- each list is a ring of the nodes of its bindings -/
  rings : BindRings H.nodes (H.HasList owned) S
  /-- views have different addresses -/
  addrs : (H.views.map ViewObj.addr).Nodup
  /-- views have different OIDs -/
  oids : (H.views.map ViewObj.oid).Nodup
  /-- bindings have different addresses -/
  binds : (H.binds.map BindObj.addr).Nodup
  /-- the list of a view holds the bindings of that kind to it -/
  mem_view : ∀ k v c, c ∈ S (.view k v) ↔ c ∈ H.binds ∧ c.kind = k ∧ c.view = v
  /-- the two lists of a principal hold its bindings -/
  mem_owner : ∀ k p c,
    (∃ aces, c ∈ S (.owner k p aces)) ↔ c ∈ H.binds ∧ c.kind = k ∧ c.owner = p
  /-- a binding points at objects that exist -/
  alive : ∀ c ∈ H.binds, c.view ∈ H.views.map ViewObj.addr ∧ owned c.kind c.owner

/-- The first element with a key that no other one has. -/
theorem find?_key {f : α → ℕ} {as : List α} (h : (as.map f).Nodup) {a : α} (ha : a ∈ as) :
    as.find? (fun b => f b = f a) = some a := by
  cases hfind : as.find? (fun b => f b = f a) with
  | none => simpa using find?_eq_none.mp hfind a ha
  | some b =>
    have hb : f b = f a := by simpa using find?_some hfind
    rw [inj_on_of_nodup_map h (mem_of_find?_eq_some hfind) ha hb]

namespace Shaped

/-- Where there is a binding, it exists, and so does the list. -/
theorem sound (h : H.Shaped owned S) (hc : c ∈ S i) : c ∈ H.binds ∧ H.HasList owned i := by
  cases i with
  | view k v =>
    obtain ⟨hb, rfl, rfl⟩ := (h.mem_view k v c).mp hc
    exact ⟨hb, (h.alive c hb).1⟩
  | owner k p a =>
    obtain ⟨hb, rfl, rfl⟩ := (h.mem_owner k p c).mp ⟨a, hc⟩
    exact ⟨hb, (h.alive c hb).2⟩

theorem eq_nil (h : H.Shaped owned S) (hi : ¬ H.HasList owned i) : S i = [] :=
  eq_nil_iff_forall_not_mem.mpr fun _ hc => hi (h.sound hc).2

/-- A list holds no binding twice. -/
theorem nodup (h : H.Shaped owned S) (hi : H.HasList owned i) : (S i).Nodup :=
  ((nodup_cons.mp (h.rings.ring i hi).nodup).2).of_map

theorem addr_inj (h : H.Shaped owned S) {d : BindObj} (hd : d ∈ H.binds) (hc : c ∈ H.binds)
    (he : d.addr = c.addr) : d = c :=
  inj_on_of_nodup_map h.binds hd hc he

/-- The view of a binding exists. -/
theorem find?_view (h : H.Shaped owned S) (hc : c ∈ H.binds) :
    H.views.find? (fun v => v.addr = c.view) = some (H.viewOf c) := by
  obtain ⟨v, hv, hview⟩ := mem_map.mp (h.alive c hc).1
  have hfind := find?_key h.addrs hv
  rw [hview] at hfind
  rw [hfind, viewOf, oidOf, hfind, ← hview]
  rfl

end Shaped

/-! ### Reading a list -/

/-- The bindings of a list of a principal can be read in the order `cs`. -/
structure Reads (H : ViewHeap) (i : ListId) (cs : List BindObj) : Prop where
  /-- the nodes of a list of a principal -/
  link : ∀ b, i.link b = .plink b
  /-- the ring of the list -/
  ring : Ring H.nodes (.head i) (i.nodes cs)
  /-- every node leads to its binding and its view -/
  entry : ∀ c ∈ cs, H.entry (.plink c.addr) = .ok (c, H.viewOf c)
  /-- a loop through it ends -/
  short : cs.length ≤ H.binds.length

theorem Shaped.reads (h : H.Shaped owned S) (hp : owned k p) (aces : MibAces) :
    H.Reads (.owner k p aces) (S (.owner k p aces)) where
  link b := rfl
  ring := h.rings.ring (.owner k p aces) hp
  entry c hc := by
    have hc := (h.sound hc).1
    simp [ViewHeap.entry, listEntry, find?_key h.binds hc, viewAt, h.find?_view hc]
  short := (subperm_of_subset (h.nodup (i := .owner k p aces) hp) fun _ hc =>
    (h.sound hc).1).length_le

namespace Reads

variable {i : ListId}

theorem first (h : H.Reads i l) :
    H.nodes.readNext (.head i) = some (firstNode (.head i) (i.nodes l)) :=
  (Ring.seam (l := []) h.ring).1

theorem next (h : H.Reads i (l ++ c :: r)) :
    H.nodes.readNext (.plink c.addr) = some (firstNode (.head i) (i.nodes r)) := by
  have hring : Ring H.nodes (.head i) ((i.nodes l ++ [.plink c.addr]) ++ i.nodes r) := by
    simpa [h.link] using h.ring
  simpa using hring.seam.1

/-- **Run lemma.** The loop of the cover test. -/
theorem viewCoverLoop (h : H.Reads i (l ++ r)) (oid : Oid) (hfuel : r.length ≤ n) :
    H.viewCoverLoop oid i (n + 1) (firstNode (.head i) (i.nodes r)) =
      .ok (SmithSnmp.viewCover (r.map H.oidOf) oid) := by
  induction r generalizing l n with
  | nil => simp [ViewHeap.viewCoverLoop, SmithSnmp.viewCover]
  | cons c r ih =>
    obtain ⟨n, rfl⟩ := Nat.exists_eq_add_one_of_ne_zero (Nat.ne_zero_of_lt hfuel)
    have ih := ih (l := l ++ [c]) (by simpa using h) (n := n) (by simpa using hfuel)
    rw [ListId.nodes_cons, firstNode_cons, h.link, ViewHeap.viewCoverLoop,
      if_neg (by simp), h.entry c (by simp), h.next]
    by_cases hpos : 0 < oidCover (H.oidOf c) oid
    · simp [hpos, SmithSnmp.viewCover]
    · simp [hpos, ih, SmithSnmp.viewCover]

/-- **Run lemma.** The loop that looks for the view after another one. A pointer is the pointer
of a view of the list exactly when the OIDs are equal. -/
theorem nextViewLoop (h : H.Reads i (l ++ r)) {v : ViewObj}
    (hv : ∀ c ∈ l ++ r, v.addr = c.view ↔ v.oid = H.oidOf c) (hfuel : r.length ≤ n) :
    ∃ w : Option BindObj,
      H.nextViewLoop i (some v.addr) (n + 1) (firstNode (.head i) (i.nodes r)) =
        .ok (w.map H.viewOf) ∧
      (∀ c ∈ w, c ∈ l ++ r) ∧
      w.map H.oidOf = SmithSnmp.nextView (r.map H.oidOf) (some v.oid) := by
  induction r generalizing l n with
  | nil => exact ⟨none, by simp [ViewHeap.nextViewLoop], by simp, rfl⟩
  | cons c r ih =>
    obtain ⟨n, rfl⟩ := Nat.exists_eq_add_one_of_ne_zero (Nat.ne_zero_of_lt hfuel)
    obtain ⟨w, hw, hmem, hnext⟩ := ih (l := l ++ [c]) (by simpa using h) (by simpa using hv)
      (n := n) (by simpa using hfuel)
    rw [ListId.nodes_cons, firstNode_cons, h.link, ViewHeap.nextViewLoop,
      if_neg (by simp), h.entry c (by simp), h.next]
    by_cases hc : v.addr = c.view
    · have hoid := (hv c (by simp)).mp hc
      cases r with
      | nil =>
        -- the last view: the loop goes on to the head
        obtain rfl : w = none := by simpa [SmithSnmp.nextView] using hnext
        refine ⟨none, ?_, by simp, by simp [SmithSnmp.nextView, hoid]⟩
        simpa [hc] using hw
      | cons d r =>
        refine ⟨some d, ?_, by simp, by simp [SmithSnmp.nextView, hoid]⟩
        simp [hc, h.link, h.entry d (by simp)]
        rfl
    · have hoid : v.oid ≠ H.oidOf c := fun he => hc ((hv c (by simp)).mpr he)
      refine ⟨w, by simp [hc, hw], by simpa using hmem, ?_⟩
      simpa [SmithSnmp.nextView, hoid] using hnext

/-- **Run lemma.** The loop that looks for the place of a new view. -/
theorem viewAddLoop (h : H.Reads i (l ++ r)) (oid : Oid) (new : NodeAddr) (hfuel : r.length ≤ n) :
    ∃ l' r', r = l' ++ r' ∧
      SmithSnmp.viewAdd oid (r.map H.oidOf) = l'.map H.oidOf ++ oid :: r'.map H.oidOf ∧
      H.viewAddLoop oid i new (n + 1) (firstNode (.head i) (i.nodes r)) =
        H.link (listAddTail · new (firstNode (.head i) (i.nodes r'))) := by
  induction r generalizing l n with
  | nil => exact ⟨[], [], rfl, rfl, by simp [ViewHeap.viewAddLoop]⟩
  | cons c r ih =>
    obtain ⟨n, rfl⟩ := Nat.exists_eq_add_one_of_ne_zero (Nat.ne_zero_of_lt hfuel)
    by_cases hpos : 0 < oidCmp (H.oidOf c) oid
    · refine ⟨[], c :: r, rfl, by simp [SmithSnmp.viewAdd, hpos], ?_⟩
      simp [ViewHeap.viewAddLoop, h.link, h.entry c (by simp), hpos]
    · obtain ⟨l', r', rfl, hadd, hloop⟩ := ih (l := l ++ [c]) (by simpa using h) (n := n)
        (by simpa using hfuel)
      refine ⟨c :: l', r', rfl, by simp [SmithSnmp.viewAdd, hpos, ← hadd], ?_⟩
      rw [← hloop, ListId.nodes_cons, firstNode_cons, h.link, ViewHeap.viewAddLoop,
        if_neg (by simp), h.entry c (by simp), h.next]
      simp [hpos]

end Reads

/-! ### Editing the lists -/

theorem link_eq {f : Links NodeAddr → Option (Links NodeAddr)} {m : Links NodeAddr}
    (h : f H.nodes = some m) : H.link f = .ok { H with nodes := m } := by
  rw [ViewHeap.link, h]
  rfl

theorem nodes_update (S : Bindings) (i : ListId) (cs : List BindObj) :
    (fun j => j.nodes (update S i cs j)) =
      update (fun j : ListId => j.nodes (S j)) i (i.nodes cs) := by
  funext j
  by_cases hji : j = i
  · subst hji
    simp
  · simp [hji]

section Rings

variable {m : Links NodeAddr} {dom : ListId → Prop} {i : ListId}

/-- A binding leaves a list. -/
theorem rings_listDel (h : BindRings m dom S) (hi : dom i) (hS : S i = l ++ c :: r) :
    ∃ m', listDel m (i.link c.addr) = some m' ∧ BindRings m' dom (update S i (l ++ r)) := by
  obtain ⟨m', hm', -, hrings⟩ := h.unlink (l := i.nodes l) (x := i.link c.addr)
    (r := i.nodes r) hi (by simp [hS])
  rw [← ListId.nodes_append, ← nodes_update] at hrings
  exact ⟨m', hm', hrings⟩

/-- A binding comes into a list, before the node at any place of it. -/
theorem rings_listAddTail (h : BindRings m dom S) (hi : dom i) (hS : S i = l ++ r)
    (hlive : m.live (i.link c.addr))
    (hout : ∀ j, dom j → i.link c.addr ∉ NodeAddr.head j :: j.nodes (S j)) :
    ∃ m', listAddTail m (i.link c.addr) (firstNode (.head i) (i.nodes r)) = some m' ∧
      BindRings m' dom (update S i (l ++ c :: r)) := by
  have hseam := (Ring.seam (l := i.nodes l) (by simpa [hS] using h.ring i hi)).2
  obtain ⟨m', hm', -, hrings⟩ := h.insertBetween (l := i.nodes l) (r := i.nodes r) hi
    (by simp [hS]) hlive hout
  rw [← ListId.nodes_cons, ← ListId.nodes_append, ← nodes_update] at hrings
  exact ⟨m', by rw [listAddTail, hseam]; exact hm', hrings⟩

/-- A binding comes to the front of a list. -/
theorem rings_listAdd (h : BindRings m dom S) (hi : dom i) (hlive : m.live (i.link c.addr))
    (hout : ∀ j, dom j → i.link c.addr ∉ NodeAddr.head j :: j.nodes (S j)) :
    ∃ m', listAdd m (i.link c.addr) (.head i) = some m' ∧ m'.live = m.live ∧
      BindRings m' dom (update S i (c :: S i)) := by
  have hseam := (Ring.seam (l := []) (h.ring i hi)).1
  obtain ⟨m', hm', hlive, hrings⟩ := h.insertBetween (l := []) (r := i.nodes (S i)) hi rfl hlive
    hout
  rw [nil_append, ← ListId.nodes_cons, ← nodes_update] at hrings
  rw [lastNode_nil] at hseam
  exact ⟨m', by rw [listAdd, hseam]; exact hm', hlive, hrings⟩

end Rings

namespace Shaped

/-- A binding is in one list of its view and in one list of its principal. -/
theorem eq_or_eq (h : H.Shaped owned S) (hc : c ∈ S (.owner k p aces)) (hci : c ∈ S i) :
    i = .view k c.view ∨ i = .owner k p aces := by
  cases i with
  | view k' v =>
    obtain ⟨-, rfl, rfl⟩ := (h.mem_view k' v c).mp hci
    obtain ⟨-, rfl, -⟩ := (h.mem_owner k p c).mp ⟨aces, hc⟩
    exact .inl rfl
  | owner k' q a =>
    refine .inr (by_contra fun hne => ?_)
    have hmem : ∀ {k q a}, c ∈ S (.owner k q a) → NodeAddr.plink c.addr ∈
        NodeAddr.head (.owner k q a) :: (ListId.owner k q a).nodes _ := fun hc =>
      mem_cons_of_mem _ (mem_map_of_mem hc)
    exact h.rings.apart _ _ (h.sound hci).2 (h.sound hc).2 hne (hmem hci) (hmem hc)

/-- A binding leaves two lists. -/
theorem unlink (h : H.Shaped owned S) {l' r' : List BindObj} (hij : i ≠ j) (hi : H.HasList owned i)
    (hj : H.HasList owned j) (hSi : S i = l ++ c :: r) (hSj : S j = l' ++ c :: r') :
    ∃ H₁ H₂, H.link (listDel · (i.link c.addr)) = .ok H₁ ∧
      H₁.link (listDel · (j.link c.addr)) = .ok H₂ ∧ H₂.views = H.views ∧ H₂.binds = H.binds ∧
      BindRings H₂.nodes (H.HasList owned) (update (update S i (l ++ r)) j (l' ++ r')) := by
  obtain ⟨m₁, hm₁, hrings⟩ := rings_listDel h.rings hi hSi
  obtain ⟨m₂, hm₂, hrings⟩ := rings_listDel hrings hj (by rwa [update_of_ne hij.symm])
  exact ⟨_, { H with nodes := m₂ }, link_eq hm₁, link_eq hm₂, rfl, rfl, hrings⟩

/-- A binding that has left its two lists is freed. -/
theorem freeBind (h : H.Shaped owned S) {l' r' : List BindObj}
    (hS : S (.owner k p aces) = l ++ c :: r) (hS' : S (.view k c.view) = l' ++ c :: r')
    {H₂ : ViewHeap} (hviews : H₂.views = H.views) (hbinds : H₂.binds = H.binds)
    (hdef : S' = update (update S (.owner k p aces) (l ++ r)) (.view k c.view) (l' ++ r'))
    (hrings : BindRings H₂.nodes (H.HasList owned) S') :
    (H₂.freeBind c.addr).Shaped owned S' := by
  have hcow : c ∈ S (.owner k p aces) := by simp [hS]
  have hck := (h.sound hcow).1
  have hcut : ∀ {l r : List BindObj}, (l ++ c :: r).Nodup → ∀ d,
      d ∈ l ++ r ↔ d ∈ l ++ c :: r ∧ d ≠ c := by
    intro l r hnodup d
    have hc := (nodup_cons.mp (nodup_middle.mp hnodup)).1
    grind
  -- it was in no other list, so all lists lose it and nothing else
  have hlists : ∀ i d, d ∈ S' i ↔ d ∈ S i ∧ d ≠ c := by
    intro i d
    rw [hdef]
    by_cases hvo : i = .view k c.view
    · subst hvo
      have hmem : c ∈ S (.view k c.view) := by simp [hS']
      rw [update_self, hS', hcut (hS' ▸ h.nodup (h.sound hmem).2)]
    by_cases how : i = .owner k p aces
    · subst how
      rw [update_of_ne hvo, update_self, hS, hcut (hS ▸ h.nodup (h.sound hcow).2)]
    · rw [update_of_ne hvo, update_of_ne how]
      refine ⟨fun hd => ⟨hd, ?_⟩, And.left⟩
      rintro rfl
      exact (h.eq_or_eq hcow hd).elim hvo how
  have hmem : ∀ d, d ∈ (H₂.freeBind c.addr).binds ↔ d ∈ H.binds ∧ d ≠ c := by
    intro d
    rw [ViewHeap.freeBind, hbinds, mem_filter, decide_eq_true_iff]
    exact and_congr_right fun hd => not_congr ⟨h.addr_inj hd hck, congrArg _⟩
  have hout : ∀ i j : ListId, H.HasList owned j →
      i.link c.addr ∉ NodeAddr.head j :: j.nodes (S' j) := by
    refine fun i j _ => ListId.link_notMem fun _ d hd he => ?_
    obtain ⟨hd, hne⟩ := (hlists j d).mp hd
    exact hne (h.addr_inj (h.sound hd).1 hck he)
  have hviews : (H₂.freeBind c.addr).views = H.views := hviews
  refine ⟨?_, hviews ▸ h.addrs, hviews ▸ h.oids, ?_, fun k' v d => ?_, fun k' q d => ?_,
    fun d hd => hviews ▸ h.alive d ((hmem d).mp hd).1⟩
  · rw [hasList_congr hviews]
    exact (hrings.setLive (hout (.view k 0)) false).setLive (hout (.owner k p aces)) false
  · exact (hbinds ▸ h.binds : (H₂.binds.map BindObj.addr).Nodup).sublist
      (filter_sublist.map _)
  · rw [hlists, hmem, h.mem_view, and_right_comm]
  · simp only [hlists]
    rw [hmem, exists_and_right, h.mem_owner, and_right_comm]

/-- A new binding that has come into its two lists. -/
theorem newBind (h : H.Shaped owned S) (hp : owned c.kind c.owner)
    (hview : c.view ∈ H.views.map ViewObj.addr) (hfresh : c.addr ∉ H.binds.map BindObj.addr)
    (hS : S (.owner c.kind c.owner aces) = l ++ r) {H₂ : ViewHeap} (hviews : H₂.views = H.views)
    (hbinds : H₂.binds = c :: H.binds)
    (hdef : S' = update (update S (.view c.kind c.view) (c :: S (.view c.kind c.view)))
      (.owner c.kind c.owner aces) (l ++ c :: r))
    (hrings : BindRings H₂.nodes (H.HasList owned) S') :
    H₂.Shaped owned S' := by
  have hlists : ∀ i d, d ∈ S' i ↔
      d ∈ S i ∨ d = c ∧ (i = .view c.kind c.view ∨ i = .owner c.kind c.owner aces) := by
    intro i d
    rw [hdef]
    by_cases how : i = .owner c.kind c.owner aces
    · subst how
      rw [update_self, hS]
      grind
    by_cases hvo : i = .view c.kind c.view
    · subst hvo
      rw [update_of_ne how, update_self]
      grind
    · simp [hvo, how]
  refine ⟨hasList_congr hviews ▸ hrings, hviews ▸ h.addrs, hviews ▸ h.oids, ?_,
    fun k v d => ?_, fun k q d => ?_, fun d hd => ?_⟩
  · rw [hbinds]
    exact nodup_cons.mpr ⟨hfresh, h.binds⟩
  · rw [hlists, h.mem_view, hbinds]
    grind
  · simp only [hlists, exists_or, h.mem_owner, hbinds]
    grind
  · rw [hviews]
    rcases mem_cons.mp (hbinds ▸ hd) with rfl | hd
    · exact ⟨hview, hp⟩
    · exact h.alive d hd

end Shaped

/-! ### The calls on one list -/

/-- The memory after an edit of the list `i` of a principal, which holds the views `os` now. The
other lists of principals are what they were. -/
def Edited (H : ViewHeap) (owned : Principal → ℕ → Prop) (S : Bindings) (i : ListId)
    (os : List Oid) (H' : ViewHeap) : Prop :=
  ∃ S' : Bindings, H'.Shaped owned S' ∧ H'.views = H.views ∧ (S' i).map H.oidOf = os ∧
    ∀ k p a, .owner k p a ≠ i → S' (.owner k p a) = S (.owner k p a)

theorem Edited.trans {S₁ : Bindings} {H₁ : ViewHeap} {os : List Oid} (hviews : H₁.views = H.views)
    (hS : ∀ k p a, .owner k p a ≠ i → S₁ (.owner k p a) = S (.owner k p a))
    (h : Edited H₁ owned S₁ i os H') : Edited H owned S i os H' := by
  obtain ⟨S', hshaped, hviews', hos, hother⟩ := h
  refine ⟨S', hshaped, hviews'.trans hviews, ?_, fun k p a hne => ?_⟩
  · rwa [← oidOf_congr hviews]
  · rw [hother k p a hne, hS k p a hne]

namespace Shaped

/-- A binding leaves the list of its principal and that of its view, in either order, and is
freed. -/
theorem unbind (h : H.Shaped owned S) (hp : owned k p)
    (hS : S (.owner k p aces) = l ++ c :: r) :
    ∃ S' : Bindings, S' (.owner k p aces) = l ++ r ∧
      (∀ k' q a, .owner k' q a ≠ ListId.owner k p aces →
        S' (.owner k' q a) = S (.owner k' q a)) ∧
      ∀ x y, (x, y) = (NodeAddr.plink c.addr, NodeAddr.vlink c.addr) ∨
          (x, y) = (NodeAddr.vlink c.addr, NodeAddr.plink c.addr) →
        ∃ H₁ H₂, H.link (listDel · x) = .ok H₁ ∧ H₁.link (listDel · y) = .ok H₂ ∧
          H₂.views = H.views ∧ (H₂.freeBind c.addr).Shaped owned S' := by
  obtain ⟨hck, rfl, -⟩ := (h.mem_owner k p c).mp ⟨aces, by simp [hS]⟩
  have hview := (h.alive c hck).1
  obtain ⟨l', r', hS'⟩ := append_of_mem ((h.mem_view _ _ c).mpr ⟨hck, rfl, rfl⟩)
  have hne : ListId.owner c.kind p aces ≠ .view c.kind c.view := nofun
  refine ⟨update (update S (.owner c.kind p aces) (l ++ r)) (.view c.kind c.view) (l' ++ r'),
    by simp, fun k' q a hne => by simp [hne], ?_⟩
  rintro x y (⟨⟨⟩⟩ | ⟨⟨⟩⟩)
  · obtain ⟨H₁, H₂, h₁, h₂, hviews, hbinds, hrings⟩ := h.unlink hne hp hview hS hS'
    exact ⟨H₁, H₂, h₁, h₂, hviews, h.freeBind hS hS' hviews hbinds rfl hrings⟩
  · obtain ⟨H₁, H₂, h₁, h₂, hviews, hbinds, hrings⟩ := h.unlink hne.symm hview hp hS' hS
    rw [update_comm hne.symm] at hrings
    exact ⟨H₁, H₂, h₁, h₂, hviews, h.freeBind hS hS' hviews hbinds rfl hrings⟩

/-- **Run lemma.** The filter deletes what the OID covers, up to a view that covers it. -/
theorem viewFilterLoop (h : H.Shaped owned S) (hp : owned k p) (oid : Oid)
    (hS : S (.owner k p aces) = l ++ r) (hfuel : r.length ≤ n) :
    ∃ H', viewFilterLoop oid (.owner k p aces) (n + 1)
        (firstNode (.head (.owner k p aces)) ((ListId.owner k p aces).nodes r)) H =
          .ok ((SmithSnmp.viewFilter oid (r.map H.oidOf)).1, H') ∧
      Edited H owned S (.owner k p aces)
        (l.map H.oidOf ++ (SmithSnmp.viewFilter oid (r.map H.oidOf)).2) H' := by
  induction r generalizing H S l n with
  | nil =>
    refine ⟨H, ?_, S, h, rfl, by simp [hS, SmithSnmp.viewFilter], fun _ _ _ _ => rfl⟩
    simp [ViewHeap.viewFilterLoop, (h.reads hp aces).first, SmithSnmp.viewFilter]
  | cons c r ih =>
    obtain ⟨n, rfl⟩ := Nat.exists_eq_add_one_of_ne_zero (Nat.ne_zero_of_lt hfuel)
    have hfuel : r.length ≤ n := by simpa using hfuel
    have hreads : H.Reads (.owner k p aces) (l ++ c :: r) := hS ▸ h.reads hp aces
    rw [ListId.nodes_cons, firstNode_cons, hreads.link, ViewHeap.viewFilterLoop, hreads.next,
      deref_some, Stop.ok_bind, if_neg (by simp), hreads.entry c (by simp), map_cons,
      SmithSnmp.viewFilter]
    by_cases hpos : 0 < oidCover (H.oidOf c) oid
    · refine ⟨H, by simp [hpos], S, h, rfl, by simp [hS, hpos], fun _ _ _ _ => rfl⟩
    by_cases hneg : oidCover (H.oidOf c) oid < 0
    · obtain ⟨S₁, hS₁, hother, hdel⟩ := h.unbind hp hS
      obtain ⟨H₁, H₂, h₁, h₂, hviews, hshaped⟩ := hdel _ _ (.inl rfl)
      obtain ⟨H', hloop, hedit⟩ := ih hshaped hS₁ hfuel
      have hoids : (H₂.freeBind c.addr).oidOf = H.oidOf := oidOf_congr hviews
      rw [hoids] at hloop hedit
      exact ⟨H', by simpa [hpos, hneg, h₁, h₂] using hloop,
        by simpa [hpos, hneg] using hedit.trans hviews hother⟩
    · obtain ⟨H', hloop, hedit⟩ := ih h (l := l ++ [c]) (by simp [hS]) hfuel
      exact ⟨H', by simpa [hpos, hneg] using hloop, by simpa [hpos, hneg] using hedit⟩

/-- **Run lemma.** Removing frees all bindings of the list. -/
theorem viewRemoveLoop (h : H.Shaped owned S) (hp : owned k p) (hS : S (.owner k p aces) = r)
    (hfuel : r.length ≤ n) :
    ∃ H', viewRemoveLoop (.owner k p aces) (n + 1)
        (firstNode (.head (.owner k p aces)) ((ListId.owner k p aces).nodes r)) H = .ok H' ∧
      Edited H owned S (.owner k p aces) [] H' := by
  induction r generalizing H S n with
  | nil =>
    refine ⟨H, ?_, S, h, rfl, by simp [hS], fun _ _ _ _ => rfl⟩
    simp [ViewHeap.viewRemoveLoop, (h.reads hp aces).first]
  | cons c r ih =>
    obtain ⟨n, rfl⟩ := Nat.exists_eq_add_one_of_ne_zero (Nat.ne_zero_of_lt hfuel)
    have hreads : H.Reads (.owner k p aces) ([] ++ c :: r) := hS ▸ h.reads hp aces
    obtain ⟨S₁, hS₁, hother, hdel⟩ := h.unbind (l := []) hp hS
    obtain ⟨H₁, H₂, h₁, h₂, hviews, hshaped⟩ := hdel _ _ (.inr rfl)
    obtain ⟨H', hloop, hedit⟩ := ih hshaped hS₁ (n := n) (by simpa using hfuel)
    refine ⟨H', ?_, hedit.trans hviews hother⟩
    rw [ListId.nodes_cons, firstNode_cons, hreads.link, ViewHeap.viewRemoveLoop, hreads.next,
      deref_some, Stop.ok_bind, if_neg (by simp)]
    simpa [listEntry, h₁, h₂] using hloop

/-- **Adding a view**: a new binding goes to the front of the list of the view, and in order into
the list of the principal. -/
theorem viewAdd (h : H.Shaped owned S) (hp : owned k p) (aces : MibAces) (malloc : Xmalloc)
    {v : ViewObj} (hv : v ∈ H.views) :
    ∃ H', H.viewAdd malloc k v.oid p v (.owner k p aces) = .ok H' ∧
      Edited H owned S (.owner k p aces)
        (SmithSnmp.viewAdd v.oid ((S (.owner k p aces)).map H.oidOf)) H' := by
  have hview : H.HasList owned (.view k v.addr) := mem_map_of_mem hv
  have hfresh := malloc.fresh (H.binds.map BindObj.addr)
  generalize hb : malloc.pick (H.binds.map BindObj.addr) = b at hfresh
  have hold : ∀ j, ∀ d ∈ S j, d.addr ≠ b := by
    rintro j d hd rfl
    exact hfresh (mem_map_of_mem (h.sound hd).1)
  have hout : ∀ i j : ListId, H.HasList owned j →
      i.link b ∉ NodeAddr.head j :: j.nodes (S j) := fun i j _ =>
    ListId.link_notMem fun _ => hold j
  have hne : ListId.owner k p aces ≠ .view k v.addr := nofun
  let c : BindObj := ⟨k, b, v.addr, p⟩
  -- the two nodes are made
  have hrings : BindRings (H.newBind c).nodes (H.HasList owned) S :=
    (h.rings.setLive (hout (.view k v.addr)) true).setLive (hout (.owner k p aces)) true
  have hlive : ((H.newBind c).nodes.live (.vlink b) = true) ∧
      (H.newBind c).nodes.live (.plink b) = true := by
    simp [ViewHeap.newBind, Links.setLive, c]
  obtain ⟨m₁, hm₁, hlive₁, -, hrings⟩ := hrings.initNode hlive.1 (hout (.view k v.addr))
  rw [← hlive₁] at hlive
  obtain ⟨m₂, hm₂, hlive₂, -, hrings⟩ := hrings.initNode hlive.2 (hout (.owner k p aces))
  rw [← hlive₂] at hlive
  -- the first one goes into the list of the view
  obtain ⟨m₃, hm₃, hlive₃, hrings⟩ := rings_listAdd (c := c) hrings hview hlive.1
    (hout (.view k v.addr))
  rw [← hlive₃] at hlive
  -- the loop reads the list of the principal as it was
  let H₃ : ViewHeap := { H.newBind c with nodes := m₃ }
  have hoids : H₃.oidOf = H.oidOf := oidOf_congr rfl
  have hreads : H₃.Reads (.owner k p aces) ([] ++ S (.owner k p aces)) := by
    have hreads := h.reads hp aces
    refine ⟨hreads.link, ?_, fun d hd => ?_, Nat.le_succ_of_le hreads.short⟩
    · simpa [hne] using hrings.ring (.owner k p aces) hp
    · have hbd : b ≠ d.addr := (hold _ d hd).symm
      rw [viewOf, hoids, ← viewOf, ← hreads.entry d hd]
      simp [ViewHeap.entry, viewAt, H₃, c, ViewHeap.newBind, listEntry, hbd]
  obtain ⟨l, r, hS, hadd, hloop⟩ := hreads.viewAddLoop v.oid (.plink b) hreads.short
  -- the second one goes into it
  obtain ⟨m₄, hm₄, hrings⟩ := rings_listAddTail (c := c) (i := .owner k p aces) (l := l)
    (r := r) hrings hp (by rw [update_of_ne hne, hS]) hlive.2 fun j hj => by
      by_cases hjv : j = .view k v.addr
      · subst hjv
        exact ListId.link_notMem nofun
      · rw [update_of_ne hjv]
        exact hout (.owner k p aces) j hj
  have hoid : H.oidOf c = v.oid := by simp [oidOf, c, find?_key h.addrs hv]
  refine ⟨{ H₃ with nodes := m₄ }, ?_, update (update S (.view k v.addr)
      (c :: S (.view k v.addr))) (.owner k p aces) (l ++ c :: r),
    h.newBind (c := c) hp hview hfresh hS rfl rfl rfl hrings, rfl, ?_, fun k' q a hne => ?_⟩
  · rw [ViewHeap.viewAdd, hb, link_eq hm₁, Stop.ok_bind, link_eq hm₂, Stop.ok_bind, link_eq hm₃,
      Stop.ok_bind, hreads.first, deref_some, Stop.ok_bind]
    exact hloop.trans (link_eq hm₄)
  · rw [hoids] at hadd
    simp [hadd, hoid]
  · simp [hne]

end Shaped

theorem newHeads_eq (h : H.Shaped owned S) (hij : i ≠ j) (hi : ¬ H.HasList owned i)
    (hj : ¬ H.HasList owned j) : ∃ m, H.newHeads i j = .ok { H with nodes := m } ∧
      BindRings m (fun n => n = j ∨ n = i ∨ H.HasList owned n) S := by
  have hout : ∀ {i : ListId}, ¬ H.HasList owned i → ∀ n, H.HasList owned n →
      NodeAddr.head i ∉ NodeAddr.head n :: n.nodes (S n) := by
    intro i hi n hn hmem
    rcases mem_cons.mp hmem with hmem | hmem
    · exact hi (NodeAddr.head.inj hmem ▸ hn)
    · obtain ⟨c, -, hc⟩ := mem_map.mp hmem
      exact ListId.link_ne_head n i c.addr hc
  have hrings := (h.rings.setLive (hout hi) true).setLive (hout hj) true
  obtain ⟨m₁, hm₁, hlive₁, hring₁, hrings⟩ := hrings.initNode (x := .head i)
    (by simp [Links.setLive, hij]) (hout hi)
  have hrings := hrings.addRing hring₁ (by simp [h.eq_nil hi]) (hout hi)
  have hout' : ∀ n, n = i ∨ H.HasList owned n →
      NodeAddr.head j ∉ NodeAddr.head n :: n.nodes (S n) := by
    rintro n (rfl | hn)
    · simpa [h.eq_nil hi] using Ne.symm hij
    · exact hout hj n hn
  obtain ⟨m₂, hm₂, -, hring₂, hrings⟩ := hrings.initNode (x := .head j)
    (by simp [hlive₁, Links.setLive]) hout'
  refine ⟨m₂, ?_, hrings.addRing hring₂ (by simp [h.eq_nil hj]) hout'⟩
  rw [newHeads, link_eq hm₁, Stop.ok_bind]
  exact link_eq hm₂

/-- An object with empty lists comes to the memory. -/
theorem Shaped.grow {owned' : Principal → ℕ → Prop} (h : H.Shaped owned S)
    (hrings : BindRings H'.nodes (H'.HasList owned') S)
    (hlists : ∀ n, H.HasList owned n → H'.HasList owned' n)
    (haddrs : (H'.views.map ViewObj.addr).Nodup) (hoids : (H'.views.map ViewObj.oid).Nodup)
    (hbinds : H'.binds = H.binds) : H'.Shaped owned' S where
  rings := hrings
  addrs := haddrs
  oids := hoids
  binds := hbinds ▸ h.binds
  mem_view := hbinds ▸ h.mem_view
  mem_owner := hbinds ▸ h.mem_owner
  alive c hc := by
    obtain ⟨hview, howner⟩ := h.alive c (hbinds ▸ hc)
    exact ⟨hlists (.view c.kind c.view) hview, hlists (.owner c.kind c.owner .read) howner⟩

/-- **The view of an OID.** There is one view for it in the end, and the views that were there
before are what they were. -/
theorem Shaped.viewCreate (h : H.Shaped owned S) (malloc : Xmalloc) (oid : Oid) :
    ∃ v H', H.viewCreate malloc oid = .ok (v, H') ∧ v ∈ H'.views ∧ v.oid = oid ∧
      H'.Shaped owned S ∧
      ∀ c : BindObj, c.view ∈ H.views.map ViewObj.addr → H'.oidOf c = H.oidOf c := by
  rw [ViewHeap.viewCreate]
  split
  · next v hv =>
      have hcmp : oidCmp v.oid oid = 0 := by simpa using find?_some hv
      exact ⟨v, H, rfl, mem_of_find?_eq_some hv, (oidCmp_eq_zero_iff _ _).mp hcmp, h,
        fun _ _ => rfl⟩
  · next hnone =>
      have hfresh := malloc.fresh (H.views.map ViewObj.addr)
      generalize malloc.pick (H.views.map ViewObj.addr) = a at hfresh
      have hnew : ∀ k, ¬ H.HasList owned (.view k a) := fun _ => hfresh
      obtain ⟨m, hm, hrings⟩ := newHeads_eq h (i := .view .community a)
        (j := .view .user a) nofun (hnew _) (hnew _)
      have hoid : oid ∉ H.views.map ViewObj.oid := by
        intro hmem
        obtain ⟨w, hw, rfl⟩ := mem_map.mp hmem
        simpa [oidCmp_eq_zero_iff] using find?_eq_none.mp hnone w hw
      have hlists : HasList { H with nodes := m, views := ⟨a, oid⟩ :: H.views } owned =
          fun n => n = .view .user a ∨ n = .view .community a ∨ H.HasList owned n := by
        funext n
        cases n with
        | view k v => cases k <;> simp [HasList]
        | owner k p a => simp [HasList]
      refine ⟨⟨a, oid⟩, { H with nodes := m, views := ⟨a, oid⟩ :: H.views }, by simp [hm],
        mem_cons_self, rfl, h.grow (hlists ▸ hrings) (hlists ▸ fun _ hn => .inr (.inr hn))
          (nodup_cons.mpr ⟨hfresh, h.addrs⟩) (nodup_cons.mpr ⟨hoid, h.oids⟩) rfl,
        fun c hc => ?_⟩
      have hne : a ≠ c.view := fun he => hfresh (he ▸ hc)
      simp [oidOf, hne]

/-! ### What the lists hold -/

/-- The lists of the principals hold the views `R`. -/
def Models (H : ViewHeap) (owned : Principal → ℕ → Prop) (R : ListId → List Oid) : Prop :=
  ∃ S : Bindings, H.Shaped owned S ∧
    ∀ k p a, (S (.owner k p a)).map H.oidOf = R (.owner k p a)

/-- The two readers answer from the memory what they answer from the lists of a principal. A view
is a pointer for them: comparing pointers is comparing OIDs. -/
def Answers (H : ViewHeap) (k : Principal) (p : ℕ) (views : MibAces → List Oid) : Prop :=
  ∀ aces, (∀ oid, H.viewCover k p aces oid = .ok (SmithSnmp.viewCover (views aces) oid)) ∧
    ∀ v : Option ViewObj, (∀ u ∈ v, u ∈ H.views) →
      ∃ w : Option ViewObj, H.nextView k p aces (v.map ViewObj.addr) = .ok w ∧
        (∀ u ∈ w, u ∈ H.views) ∧
        w.map ViewObj.oid = SmithSnmp.nextView (views aces) (v.map ViewObj.oid)

namespace Models

variable {R : ListId → List Oid}

theorem edited (hR : ∀ k p a, (S (.owner k p a)).map H.oidOf = R (.owner k p a)) {os : List Oid}
    (h : Edited H owned S i os H') : H'.Models owned (update R i os) := by
  obtain ⟨S', hshaped, hviews, hos, hother⟩ := h
  refine ⟨S', hshaped, fun k p a => ?_⟩
  rw [oidOf_congr hviews]
  by_cases hi : .owner k p a = i
  · rw [hi, update_self, hos]
  · rw [update_of_ne hi, hother k p a hi, hR]

/-- **Removing** the views of a list. -/
theorem viewRemove (h : H.Models owned R) (hp : owned k p) (aces : MibAces) :
    ∃ H', H.viewRemove (.owner k p aces) = .ok H' ∧
      H'.Models owned (update R (.owner k p aces) []) := by
  obtain ⟨S, hshaped, hR⟩ := h
  have hreads := hshaped.reads hp aces
  obtain ⟨H', hloop, hedit⟩ := hshaped.viewRemoveLoop hp rfl hreads.short
  exact ⟨H', by rw [ViewHeap.viewRemove, hreads.first]; exact hloop, edited hR hedit⟩

/-- **Binding** a principal to a view. -/
theorem viewBind (h : H.Models owned R) (hp : owned k p) (malloc : Xmalloc) (oid : Oid)
    (aces : MibAces) :
    ∃ H', H.viewBind malloc k oid p aces = .ok H' ∧
      H'.Models owned (update R (.owner k p aces)
        (SmithSnmp.viewBind oid (R (.owner k p aces)))) := by
  obtain ⟨S, hshaped, hR⟩ := h
  have hreads := hshaped.reads hp aces
  obtain ⟨H₁, hloop, hedit⟩ :=
    hshaped.viewFilterLoop hp oid (l := []) rfl hreads.short
  rw [hR, map_nil, nil_append] at hedit
  rw [hR] at hloop
  have hfilter : H.viewFilter oid (.owner k p aces) =
      .ok ((SmithSnmp.viewFilter oid (R (.owner k p aces))).1, H₁) := by
    rw [ViewHeap.viewFilter, hreads.first]
    exact hloop
  rw [ViewHeap.viewBind, hfilter, Stop.ok_bind, SmithSnmp.viewBind]
  by_cases hfound : (SmithSnmp.viewFilter oid (R (.owner k p aces))).1
  · simp only [hfound, if_true]
    exact ⟨H₁, rfl, edited hR hedit⟩
  · obtain ⟨S₁, hshaped₁, hR₁⟩ := edited hR hedit
    obtain ⟨v, H₂, hcreate, hv, rfl, hshaped₂, hoids⟩ := hshaped₁.viewCreate malloc oid
    have hR₂ : ∀ k' q a, (S₁ (.owner k' q a)).map H₂.oidOf =
        update R (.owner k p aces) (SmithSnmp.viewFilter v.oid (R (.owner k p aces))).2
          (.owner k' q a) := by
      intro k' q a
      rw [← hR₁]
      exact map_congr_left fun c hc => hoids c (hshaped₁.alive c (hshaped₁.sound hc).1).1
    obtain ⟨H₃, hadd, hedit₃⟩ := hshaped₂.viewAdd hp aces malloc hv
    rw [hR₂, update_self] at hedit₃
    refine ⟨H₃, by simpa [hfound, hcreate] using hadd, ?_⟩
    simpa [hfound] using edited hR₂ hedit₃

/-- **Reading** the lists. -/
theorem answers (h : H.Models owned R) (hp : owned k p) :
    H.Answers k p fun aces => R (.owner k p aces) := by
  obtain ⟨S, hshaped, hR⟩ := h
  intro aces
  beta_reduce
  have hreads := hshaped.reads hp aces
  refine ⟨fun oid => ?_, fun v hv => ?_⟩
  · rw [ViewHeap.viewCover, hreads.first, ← hR]
    exact Reads.viewCoverLoop (l := []) hreads oid hreads.short
  have hview : ∀ c ∈ S (.owner k p aces), H.viewOf c ∈ H.views := fun c hc =>
    mem_of_find?_eq_some (hshaped.find?_view (hshaped.sound hc).1)
  rw [ViewHeap.nextView, hreads.first, deref_some, Stop.ok_bind, ← hR]
  cases v with
  | none =>
    rw [Option.map_none, rounds, ViewHeap.nextViewLoop]
    cases hS : S (.owner k p aces) with
    | nil => exact ⟨none, by simp, by simp, rfl⟩
    | cons c cs =>
      rw [hS] at hreads hview
      have hentry := hreads.entry c mem_cons_self
      refine ⟨some (H.viewOf c), ?_, by simpa using hview c mem_cons_self, rfl⟩
      simp [hreads.link, hreads.first, hentry]
      rfl
  | some v =>
    have hsame : ∀ c ∈ [] ++ S (.owner k p aces), v.addr = c.view ↔ v.oid = H.oidOf c := by
      intro c hc
      refine ⟨fun he => ?_, fun he => ?_⟩
      · exact congrArg _ (inj_on_of_nodup_map hshaped.addrs (hv v rfl) (hview c hc) he)
      · exact congrArg _ (inj_on_of_nodup_map hshaped.oids (hv v rfl) (hview c hc) he)
    obtain ⟨w, hw, hmem, hnext⟩ := Reads.nextViewLoop (l := []) hreads hsame hreads.short
    refine ⟨w.map H.viewOf, hw, fun u hu => ?_, ?_⟩
    · obtain ⟨c, hc, rfl⟩ := Option.map_eq_some_iff.mp hu
      exact hview c (hmem c hc)
    · rw [Option.map_map]
      exact hnext

end Models

end ViewHeap

end SmithSnmp
