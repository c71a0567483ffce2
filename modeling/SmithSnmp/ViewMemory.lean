import SmithSnmp.CanonicalViews
import SmithSnmp.Revocation
import SmithSnmp.ViewHeap

/-!
# Principals in Memory

The calls of `core/mib_view.c` that create, register and revoke communities and users, on the
memory of `SmithSnmp.ViewHeap`. A principal is an object with a name and two list heads; `free`
takes them back. The keys of a user lie inside its object, where no list function looks.

## Main results

* `viewCalls_refine`: whatever addresses `xmalloc` gives, no run of the calls touches memory that
  does not exist, and the memory holds what the same calls make of a `ViewState`.
* `viewCalls_accounted`: after a run no two views have one OID, and every binding is in exactly one
  list of a view and in exactly one list of a principal that exist.
* `viewCalls_read`: the readers find in the memory what they find in the `ViewState`.
-/

namespace SmithSnmp

open List Lib Function

/-! ### Objects -/

/-- `struct mib_community` and `struct mib_user` at their addresses -/
structure OwnerObj where
  addr : ℕ
  name : Name
deriving DecidableEq, Repr

/-- The memory of `mib_view.c`. -/
structure ViewMem where
  heap : ViewHeap
  /-- `mib_communities` and `mib_users` -/
  owners : Principal → List OwnerObj

/-- Nothing is allocated. -/
def ViewMem.empty : ViewMem where
  heap :=
    { nodes := ⟨fun _ => false, fun _ => none, fun _ => none⟩, views := [], binds := [] }
  owners _ := []

/-- `mib_community_search` and `mib_user_search` -/
def ownerSearch (os : List OwnerObj) (name : Name) : Option OwnerObj :=
  os.find? fun o => o.name = name

namespace ViewHeap

/-- `list_empty` -/
def listEmpty (H : ViewHeap) (i : ListId) : Except Stop Bool :=
  (deref (H.nodes.readNext (.head i))).map fun next => next = .head i

/-- The lists of a new principal. -/
def newOwner (H : ViewHeap) (k : Principal) (p : ℕ) : Except Stop ViewHeap :=
  H.newHeads (.owner k p .read) (.owner k p .write)

/-- `free` of a principal -/
def freeOwner (H : ViewHeap) (k : Principal) (p : ℕ) : ViewHeap :=
  { H with
    nodes := (H.nodes.setLive (.head (.owner k p .read)) false).setLive
      (.head (.owner k p .write)) false }

/-- The bindings of `mib_community_reg` and `mib_user_reg`. -/
def ownerReg (malloc : Xmalloc) (H : ViewHeap) (k : Principal) (oid : Oid) (p : ℕ)
    (aces : MibAces) : Except Stop ViewHeap := do
  let H ← if aces = .write then H.viewBind malloc k oid p .write else .ok H
  H.viewBind malloc k oid p .read

/-- `mib_community_unreg` and `mib_user_unreg` delete the views of a principal. -/
def ownerStrip (H : ViewHeap) (k : Principal) (p : ℕ) (aces : MibAces) : Except Stop ViewHeap := do
  let H ← if aces = .read then H.viewRemove (.owner k p .read) else .ok H
  H.viewRemove (.owner k p .write)

/-- The loop of `mib_community_unreg` and `mib_user_unreg`. -/
def ownerUnreg (k : Principal) (name : Name) (aces : MibAces) :
    List OwnerObj → ViewHeap → Except Stop (List OwnerObj × ViewHeap)
  | [], H => .ok ([], H)
  | o :: os, H =>
    if o.name = name then do
      let H ← H.ownerStrip k o.addr aces
      let ro ← H.listEmpty (.owner k o.addr .read)
      let rw ← H.listEmpty (.owner k o.addr .write)
      if ro ∧ rw then ownerUnreg k name aces os (H.freeOwner k o.addr)
      -- the loop finds the same principal again, for ever
      else .error .spins
    else do
      let (os, H) ← ownerUnreg k name aces os H
      .ok (o :: os, H)

end ViewHeap

namespace ViewMem

/-- `community_create`, and `mib_user_create` -/
def create (malloc : Xmalloc) (M : ViewMem) (k : Principal) (name : Name) :
    Except Stop (OwnerObj × ViewMem) :=
  match ownerSearch (M.owners k) name with
  | some o => .ok (o, M)
  | none => do
      let o := ⟨malloc.pick ((M.owners k).map OwnerObj.addr), name⟩
      let H ← M.heap.newOwner k o.addr
      .ok (o, ⟨H, update M.owners k (o :: M.owners k)⟩)

/-- `mib_community_reg` and `mib_user_reg` of a principal that exists -/
def reg (malloc : Xmalloc) (M : ViewMem) (k : Principal) (oid : Oid) (o : OwnerObj)
    (aces : MibAces) : Except Stop ViewMem :=
  (M.heap.ownerReg malloc k oid o.addr aces).map fun H => { M with heap := H }

/-- `mib_community_unreg` and `mib_user_unreg` -/
def unreg (M : ViewMem) (k : Principal) (name : Name) (aces : MibAces) : Except Stop ViewMem :=
  (M.heap.ownerUnreg k name aces (M.owners k)).map fun r =>
    ⟨r.2, update M.owners k r.1⟩

end ViewMem

/-! ### Calls -/

/-- The calls of `mib_view.c`. -/
inductive ViewCall where
  | communityReg (oid : Oid) (name : Name) (aces : MibAces)
  | communityUnreg (name : Name) (aces : MibAces)
  | userCreate (cr : Crypto) (uninit : UserSecrets) (user : Name) (authMode : UInt8)
      (authPhrase : List UInt8) (privMode : UInt8) (privPhrase : List UInt8)
  | userReg (oid : Oid) (user : Name) (aces : MibAces)
  | userUnreg (user : Name) (aces : MibAces)

/-- A call on the memory. -/
def ViewCall.run (malloc : Xmalloc) (M : ViewMem) : ViewCall → Except Stop ViewMem
  | .communityReg oid name aces => do
      let (c, M) ← M.create malloc .community name
      M.reg malloc .community oid c aces
  | .communityUnreg name aces => M.unreg .community name aces
  | .userCreate _ _ user _ _ _ _ => (M.create malloc .user user).map Prod.snd
  | .userReg oid user aces =>
    match ownerSearch (M.owners .user) user with
    | none => .ok M
    | some u => M.reg malloc .user oid u aces
  | .userUnreg user aces => M.unreg .user user aces

/-- A call on the `ViewState`; `none` when it does not return. -/
def ViewCall.apply (s : ViewState) : ViewCall → Option ViewState
  | .communityReg oid name aces => some (mibCommunityReg s oid name aces)
  | .communityUnreg name aces => mibCommunityUnreg s name aces
  | .userCreate cr uninit user authMode authPhrase privMode privPhrase =>
    some (mibUserCreate cr uninit s user authMode authPhrase privMode privPhrase)
  | .userReg oid user aces => some (mibUserReg s oid user aces)
  | .userUnreg user aces => mibUserUnreg s user aces

/-! ### Principals come and go -/

/-- The lists of one principal change, each by `F`. -/
def atOwner (k : Principal) (p : ℕ) (F : MibAces → List Oid → List Oid) (R : ListId → List Oid) :
    ListId → List Oid
  | .view k' v => R (.view k' v)
  | .owner k' q a => if (k', q) = (k, p) then F a (R (.owner k' q a)) else R (.owner k' q a)

variable {k k' : Principal} {p q : ℕ} {a : MibAces} {F : MibAces → List Oid → List Oid}
  {R : ListId → List Oid} {name : Name}

@[simp] theorem atOwner_self : atOwner k p F R (.owner k p a) = F a (R (.owner k p a)) := if_pos rfl

theorem atOwner_of_ne (h : (k', q) ≠ (k, p)) :
    atOwner k p F R (.owner k' q a) = R (.owner k' q a) := if_neg h

theorem atOwner_eq_update {os os' : List Oid} (hread : F .read (R (.owner k p .read)) = os)
    (hwrite : F .write (R (.owner k p .write)) = os') :
    update (update R (.owner k p .read) os) (.owner k p .write) os' = atOwner k p F R := by
  funext i
  cases i with
  | view k' v => rfl
  | owner k' q a =>
    by_cases h : (k', q) = (k, p)
    · cases h
      cases a <;> simp [hread, hwrite]
    · rw [atOwner_of_ne h]
      have hne : ∀ b, ListId.owner k' q a ≠ .owner k p b := fun b he => h (by cases he; rfl)
      rw [update_of_ne (hne _), update_of_ne (hne _)]

/-- What a registration makes of a list of a principal. -/
def regList (oid : Oid) (aces a : MibAces) (views : List Oid) : List Oid :=
  if a = .read ∨ aces = .write then viewBind oid views else views

/-- What revoking leaves of a list of a principal. -/
def stripList (aces a : MibAces) (views : List Oid) : List Oid :=
  if a = .write ∨ aces = .read then [] else views

theorem stripList_read (aces : MibAces) (views : List Oid) :
    stripList aces .read views = [] ↔ aces = .read ∨ views = [] := by
  by_cases h : aces = .read <;> simp [stripList, h]

@[simp] theorem stripList_write (aces : MibAces) (views : List Oid) :
    stripList aces .write views = [] := if_pos (.inl rfl)

namespace ViewHeap.Models

variable {H : ViewHeap} {owned : Principal → ℕ → Prop}

theorem eq_nil (h : H.Models owned R) (hp : ¬ owned k p) (a : MibAces) :
    R (.owner k p a) = [] := by
  obtain ⟨S, hshaped, hR⟩ := h
  rw [← hR, hshaped.eq_nil (i := .owner k p a) hp, map_nil]

/-- A new principal has no views. -/
theorem newOwner (h : H.Models owned R) (hp : ¬ owned k p) :
    ∃ H', H.newOwner k p = .ok H' ∧ H'.Models (fun k' q => (k', q) = (k, p) ∨ owned k' q) R := by
  obtain ⟨S, hshaped, hR⟩ := h
  have hnew : ∀ a, ¬ H.HasList owned (.owner k p a) := fun _ => hp
  obtain ⟨m, hm, hrings⟩ := newHeads_eq hshaped (i := .owner k p .read)
    (j := .owner k p .write) nofun (hnew _) (hnew _)
  have hlists : HasList { H with nodes := m } (fun k' q => (k', q) = (k, p) ∨ owned k' q) =
      fun n => n = .owner k p .write ∨ n = .owner k p .read ∨ H.HasList owned n := by
    funext n
    cases n with
    | view k' v => simp [HasList]
    | owner k' q a => cases a <;> simp [HasList, ← or_assoc]
  exact ⟨_, hm, S, hshaped.grow (hlists ▸ hrings) (hlists ▸ fun _ hn => .inr (.inr hn))
    hshaped.addrs hshaped.oids rfl, hR⟩

/-- A principal without views is freed. -/
theorem freeOwner (h : H.Models owned R) (hp : owned k p) (hR : ∀ a, R (.owner k p a) = []) :
    (H.freeOwner k p).Models (fun k' q => (k', q) ≠ (k, p) ∧ owned k' q) R := by
  obtain ⟨S, hshaped, hS⟩ := h
  have hlists : ∀ n, (H.freeOwner k p).HasList (fun k' q => (k', q) ≠ (k, p) ∧ owned k' q) n →
      H.HasList owned n ∧ ∀ a, n ≠ .owner k p a := by
    intro n hn
    cases n with
    | view k' v => exact ⟨hn, nofun⟩
    | owner k' q a =>
      refine ⟨hn.2, ?_⟩
      rintro a' ⟨⟩
      exact hn.1 rfl
  have hout : ∀ a n, (H.freeOwner k p).HasList (fun k' q => (k', q) ≠ (k, p) ∧ owned k' q) n →
      NodeAddr.head (.owner k p a) ∉ NodeAddr.head n :: n.nodes (S n) := by
    intro a n hn hmem
    exact hshaped.rings.apart n (.owner k p a) (hlists n hn).1 hp ((hlists n hn).2 a) hmem
      mem_cons_self
  refine ⟨S, ⟨?_, hshaped.addrs, hshaped.oids, hshaped.binds, hshaped.mem_view, hshaped.mem_owner,
    fun c hc => ?_⟩, hS⟩
  · exact ((hshaped.rings.mono fun n hn => (hlists n hn).1).setLive (hout .read) false).setLive
      (hout .write) false
  · obtain ⟨hview, howner⟩ := hshaped.alive c hc
    refine ⟨hview, fun he => ?_, howner⟩
    cases he
    obtain ⟨a, ha⟩ := (hshaped.mem_owner _ _ c).mpr ⟨hc, rfl, rfl⟩
    rw [map_eq_nil_iff.mp ((hS _ _ a).trans (hR a))] at ha
    cases ha

theorem listEmpty (h : H.Models owned R) (hp : owned k p) (a : MibAces) :
    H.listEmpty (.owner k p a) = .ok (R (.owner k p a) = [] : Bool) := by
  obtain ⟨S, hshaped, hR⟩ := h
  rw [ViewHeap.listEmpty, (hshaped.reads hp a).first, ← hR]
  cases S (.owner k p a) <;> simp [deref, Except.map]

theorem ownerReg (h : H.Models owned R) (hp : owned k p) (malloc : Xmalloc) (oid : Oid)
    (aces : MibAces) :
    ∃ H', H.ownerReg malloc k oid p aces = .ok H' ∧
      H'.Models owned (atOwner k p (regList oid aces) R) := by
  cases aces with
  | read =>
    obtain ⟨H', hbind, hmodels⟩ := h.viewBind hp malloc oid .read
    refine ⟨H', by simpa [ViewHeap.ownerReg] using hbind, ?_⟩
    rwa [← atOwner_eq_update (F := regList oid .read) rfl rfl,
      update_eq_self_iff.mpr (by simp [regList])]
  | write =>
    obtain ⟨H₁, hbind₁, hmodels₁⟩ := h.viewBind hp malloc oid .write
    obtain ⟨H', hbind, hmodels⟩ := hmodels₁.viewBind hp malloc oid .read
    refine ⟨H', by simpa [ViewHeap.ownerReg, hbind₁] using hbind, ?_⟩
    rw [← atOwner_eq_update rfl rfl, update_comm (by simp)]
    simpa [regList] using hmodels

theorem ownerStrip (h : H.Models owned R) (hp : owned k p) (aces : MibAces) :
    ∃ H', H.ownerStrip k p aces = .ok H' ∧ H'.Models owned (atOwner k p (stripList aces) R) := by
  cases aces with
  | read =>
    obtain ⟨H₁, h₁, hmodels₁⟩ := h.viewRemove hp .read
    obtain ⟨H₂, h₂, hmodels⟩ := hmodels₁.viewRemove hp .write
    refine ⟨H₂, by simpa [ViewHeap.ownerStrip, h₁] using h₂, ?_⟩
    simpa [← atOwner_eq_update rfl rfl, stripList] using hmodels
  | write =>
    obtain ⟨H₂, h₂, hmodels⟩ := h.viewRemove hp .write
    refine ⟨H₂, by simpa [ViewHeap.ownerStrip] using h₂, ?_⟩
    simpa [← atOwner_eq_update rfl rfl, stripList] using hmodels

/-- **Run lemma.** Revoking ends when no principal of the name keeps a view, and frees these
principals with all their bindings. -/
theorem ownerUnreg (h : H.Models owned R) (name : Name) (aces : MibAces)
    {os : List OwnerObj} (hown : ∀ o ∈ os, owned k o.addr)
    (hnodup : (os.map OwnerObj.addr).Nodup) :
    ((aces = .read ∨ ∀ o ∈ os, o.name = name → R (.owner k o.addr .read) = []) →
      ∃ H' R', ViewHeap.ownerUnreg k name aces os H =
          .ok (os.filter fun o => o.name ≠ name, H') ∧
        H'.Models (fun k' q => owned k' q ∧ ∀ o ∈ os, o.name = name → (k', q) ≠ (k, o.addr)) R' ∧
        ∀ k' q a, (∀ o ∈ os, o.name = name → (k', q) ≠ (k, o.addr)) →
          R' (.owner k' q a) = R (.owner k' q a)) ∧
    (¬ (aces = .read ∨ ∀ o ∈ os, o.name = name → R (.owner k o.addr .read) = []) →
      ViewHeap.ownerUnreg k name aces os H = .error .spins) := by
  induction os generalizing H owned R with
  | nil => exact ⟨fun _ => ⟨H, R, rfl, by simpa using h, fun _ _ _ _ => rfl⟩, by simp⟩
  | cons o os ih =>
    obtain ⟨ho, hnodup⟩ := nodup_cons.mp hnodup
    obtain ⟨howno, hown⟩ := forall_mem_cons.mp hown
    by_cases hname : o.name = name
    · -- the principal is stripped, and freed if nothing is left
      obtain ⟨H₂, h₂, hmodels⟩ := h.ownerStrip howno aces
      have hro := hmodels.listEmpty howno .read
      have hrw := hmodels.listEmpty howno .write
      have hne : ∀ o' ∈ os, (k, o'.addr) ≠ (k, o.addr) := fun o' ho' he =>
        ho ((Prod.mk.inj he).2 ▸ mem_map_of_mem ho')
      have hround : ViewHeap.ownerUnreg k name aces (o :: os) H =
          if aces = .read ∨ R (.owner k o.addr .read) = [] then
            ViewHeap.ownerUnreg k name aces os (H₂.freeOwner k o.addr)
          else .error .spins := by
        rw [ViewHeap.ownerUnreg, if_pos hname, h₂, Stop.ok_bind, hro, Stop.ok_bind, hrw,
          Stop.ok_bind]
        simp [stripList_read]
      rw [hround]
      by_cases hkeep : aces = .read ∨ R (.owner k o.addr .read) = []
      · obtain ⟨hends, hspins⟩ := ih (hmodels.freeOwner howno fun a => by
            cases a with
            | read => simpa [stripList_read] using hkeep
            | write => simp)
          (fun o' ho' => ⟨hne o' ho', hown o' ho'⟩) hnodup
        have hcond : (aces = .read ∨ ∀ o' ∈ os, o'.name = name →
            atOwner k o.addr (stripList aces) R (.owner k o'.addr .read) = []) ↔
            (aces = .read ∨
              ∀ o' ∈ o :: os, o'.name = name → R (.owner k o'.addr .read) = []) := by
          by_cases haces : aces = .read
          · simp [haces]
          simp only [haces, false_or, forall_mem_cons, hkeep.resolve_left haces,
            implies_true, true_and]
          exact forall₂_congr fun o' ho' => by rw [atOwner_of_ne (hne o' ho')]
        rw [if_pos hkeep, ← hcond]
        refine ⟨fun hrev => ?_, hspins⟩
        obtain ⟨H', R', hloop, hmodels', hR'⟩ := hends hrev
        refine ⟨H', R', by simpa [hname] using hloop, ?_, fun k' q a hq => ?_⟩
        · convert hmodels' using 3 with k' q
          rw [forall_mem_cons, and_comm (b := owned k' q), and_assoc]
          simp [hname]
        · obtain ⟨hqo, hq⟩ := forall_mem_cons.mp hq
          rw [hR' k' q a hq, atOwner_of_ne (hqo hname)]
      · rw [if_neg hkeep]
        refine ⟨fun hrev => absurd ?_ hkeep, fun _ => rfl⟩
        exact hrev.imp id fun hall => hall o mem_cons_self hname
    · obtain ⟨hends, hspins⟩ := ih h hown hnodup
      constructor
      · intro hrev
        obtain ⟨H', R', hloop, hmodels, hR'⟩ := hends (by simpa [hname] using hrev)
        refine ⟨H', R', ?_, by simpa [hname] using hmodels, by simpa [hname] using hR'⟩
        simp [ViewHeap.ownerUnreg, hname, hloop]
      · intro hrev
        simp [ViewHeap.ownerUnreg, hname, hspins (by simpa [hname] using hrev)]
        rfl

end ViewHeap.Models

/-! ### The memory holds a state -/

/-- The name of a principal and its two lists. -/
abbrev OwnerLists := Name × (MibAces → List Oid)

/-- The principals of a state with their two lists. -/
def ViewState.owners (s : ViewState) : Principal → List OwnerLists
  | .community => s.communities.map fun c => (c.name, c.viewsOf)
  | .user => s.users.map fun u => (u.name, u.viewsOf)

namespace ViewMem

variable {M : ViewMem} {s s' : ViewState}

/-- The principals that exist. -/
def owns (M : ViewMem) (k : Principal) (p : ℕ) : Prop := p ∈ (M.owners k).map OwnerObj.addr

/-- A principal with its two lists. -/
def listsOf (R : ListId → List Oid) (k : Principal) (o : OwnerObj) : OwnerLists :=
  (o.name, fun a => R (.owner k o.addr a))

/-- The memory holds the state, and the lists of the principals are `R`. -/
structure HoldsAt (M : ViewMem) (R : ListId → List Oid) (s : ViewState) : Prop where
  /-- the lists of the principals -/
  models : M.heap.Models M.owns R
  /-- principals have different addresses -/
  addrs : ∀ k, ((M.owners k).map OwnerObj.addr).Nodup
  /-- the principals in their order -/
  state : ∀ k, s.owners k = (M.owners k).map (listsOf R k)

/-- The memory holds the state. -/
def Holds (M : ViewMem) (s : ViewState) : Prop := ∃ R, M.HoldsAt R s

/-- A call that takes the memory to a state, or does not return where the state has none. -/
def Simulates (x : Except Stop ViewMem) : Option ViewState → Prop
  | some s => ∃ M, x = .ok M ∧ M.Holds s
  | none => x = .error .spins

theorem empty_holds : empty.Holds {} := by
  have hnone : ∀ i, ¬ empty.heap.HasList empty.owns i := by
    rintro (⟨k, v⟩ | ⟨k, p, a⟩) <;> exact nofun
  exact ⟨fun _ => [], ⟨fun _ => [], ⟨⟨fun i hi => absurd hi (hnone i), fun i _ hi =>
    absurd hi (hnone i)⟩, nodup_nil, nodup_nil, nodup_nil,
    by simp [empty], by simp [empty], nofun⟩, fun _ _ _ => rfl⟩,
    fun _ => nodup_nil, fun k => by cases k <;> rfl⟩

/-- The principals of one kind change. -/
theorem HoldsAt.update_owners (h : M.HoldsAt R s) (k : Principal) (os : List OwnerObj)
    {H' : ViewHeap} {R' : ListId → List Oid} {owned : Principal → ℕ → Prop}
    (hmodels : H'.Models owned R') (haddrs : (os.map OwnerObj.addr).Nodup)
    (hown : ∀ p, p ∈ os.map OwnerObj.addr ↔ owned k p)
    (hs' : s'.owners = update s.owners k (os.map (listsOf R' k)))
    (hother : ∀ k' p, k' ≠ k → (M.owns k' p ↔ owned k' p) ∧
      ∀ a, R' (.owner k' p a) = R (.owner k' p a)) :
    HoldsAt ⟨H', update M.owners k os⟩ R' s' := by
  refine ⟨?_, fun k' => ?_, fun k' => ?_⟩
  · convert hmodels using 1
    funext k' p
    by_cases hk : k' = k
    · subst hk
      simpa [owns] using hown p
    · simpa [owns, hk] using (hother k' p hk).1
  · by_cases hk : k' = k
    · subst hk
      simpa using haddrs
    · simpa [hk] using h.addrs k'
  · by_cases hk : k' = k
    · subst hk
      simp [hs']
    · simp only [hs', update_of_ne hk, h.state]
      exact map_congr_left fun o _ => by simp [listsOf, (hother k' o.addr hk).2]

/-- A principal is looked for by its name, and a new one has no views. -/
def ensureOwner (name : Name) (xs : List OwnerLists) : List OwnerLists :=
  match xs.find? fun x => x.1 = name with
  | none => (name, fun _ => []) :: xs
  | some _ => xs

/-- A search in the memory is a search in the state. -/
theorem HoldsAt.search (h : M.HoldsAt R s) (k : Principal) (name : Name) :
    (s.owners k).find? (fun x => x.1 = name) =
      (ownerSearch (M.owners k) name).map (listsOf R k) := by
  rw [h.state]
  exact find?_map ..

/-- **Step lemma.** A principal is looked for, and created if there is none. -/
theorem HoldsAt.create (h : M.HoldsAt R s) (malloc : Xmalloc)
    (hs' : s'.owners = update s.owners k (ensureOwner name (s.owners k))) :
    ∃ o M', M.create malloc k name = .ok (o, M') ∧
      ownerSearch (M'.owners k) name = some o ∧ M'.HoldsAt R s' := by
  rw [ensureOwner, h.search] at hs'
  rw [ViewMem.create]
  cases ho : ownerSearch (M.owners k) name with
  | some o =>
    refine ⟨o, M, rfl, ho, h.models, h.addrs, ?_⟩
    simpa [hs', ho] using h.state
  | none =>
    have hfresh := malloc.fresh ((M.owners k).map OwnerObj.addr)
    generalize malloc.pick ((M.owners k).map OwnerObj.addr) = a at hfresh
    obtain ⟨H', hnew, hmodels⟩ := h.models.newOwner hfresh
    refine ⟨⟨a, name⟩, _, by simp [hnew], ?_,
      h.update_owners k (⟨a, name⟩ :: M.owners k) hmodels
        (nodup_cons.mpr ⟨hfresh, h.addrs k⟩) (fun p => by simp [owns]) ?_
      fun k' p hk => ⟨by simp [hk], fun _ => rfl⟩⟩
    · simp [ownerSearch]
    · have hnil : ∀ b, R (.owner k a b) = [] := h.models.eq_nil hfresh
      simp [hs', ho, h.state, listsOf, hnil]

/-- Both lists of a principal change. -/
def mapLists (F : MibAces → List Oid → List Oid) (x : OwnerLists) : OwnerLists :=
  (x.1, fun a => F a (x.2 a))

/-- An update of the principal that a search finds. -/
theorem updateFirst_map {os : List OwnerObj} {o : OwnerObj}
    (hnodup : (os.map OwnerObj.addr).Nodup) (ho : ownerSearch os name = some o) :
    updateFirst (fun x => x.1 = name) (mapLists F) (os.map (listsOf R k)) =
      os.map (listsOf (atOwner k o.addr F R) k) := by
  induction os with
  | nil => cases ho
  | cons d os ih =>
    obtain ⟨hd, hnodup⟩ := nodup_cons.mp hnodup
    have hne : ∀ e : OwnerObj, e.addr ≠ o.addr →
        listsOf (atOwner k o.addr F R) k e = listsOf R k e := fun e he => by
      simp [listsOf, atOwner, he]
    rw [map_cons, map_cons, updateFirst]
    by_cases hname : d.name = name
    · obtain rfl : d = o := by simpa [ownerSearch, hname] using ho
      rw [if_pos (by exact decide_eq_true hname)]
      refine congrArg₂ _ (by simp [mapLists, listsOf])
        (map_congr_left fun e he => (hne e ?_).symm)
      exact fun heq => hd (heq ▸ mem_map_of_mem he)
    · have ho : ownerSearch os name = some o := by simpa [ownerSearch, hname] using ho
      rw [if_neg (by exact mt of_decide_eq_true hname), ih hnodup ho, hne d]
      exact fun heq => hd (heq ▸ mem_map_of_mem (mem_of_find?_eq_some ho))

/-- **Step lemma.** A principal that exists is registered. -/
theorem HoldsAt.reg (h : M.HoldsAt R s) {o : OwnerObj}
    (ho : ownerSearch (M.owners k) name = some o) (malloc : Xmalloc) {oid : Oid} {aces : MibAces}
    (hs' : s'.owners = update s.owners k (updateFirst (fun x => x.1 = name)
      (mapLists (regList oid aces)) (s.owners k))) :
    ∃ M', M.reg malloc k oid o aces = .ok M' ∧ M'.Holds s' := by
  have hmem : M.owns k o.addr := mem_map_of_mem (mem_of_find?_eq_some ho)
  obtain ⟨H', hreg, hmodels⟩ := h.models.ownerReg hmem malloc oid aces
  have hholds := h.update_owners k (M.owners k) hmodels (h.addrs k) (fun _ => Iff.rfl)
    (by rw [hs', h.state, updateFirst_map (h.addrs k) ho])
    fun k' p hk => ⟨Iff.rfl, fun _ => atOwner_of_ne (by simp [hk])⟩
  rw [update_eq_self] at hholds
  exact ⟨_, by rw [ViewMem.reg, hreg]; rfl, _, hholds⟩

/-- The addresses of the principals of other names. -/
theorem mem_filter_addr {os : List OwnerObj} (h : (os.map OwnerObj.addr).Nodup) {p : ℕ} :
    p ∈ (os.filter fun o => o.name ≠ name).map OwnerObj.addr ↔
      p ∈ os.map OwnerObj.addr ∧ ∀ o ∈ os, o.name = name → p ≠ o.addr := by
  simp only [mem_map, mem_filter, ne_eq, decide_not, Bool.not_eq_true',
    decide_eq_false_iff_not]
  constructor
  · rintro ⟨o, ⟨ho, hname⟩, rfl⟩
    refine ⟨⟨o, ho, rfl⟩, fun o' ho' hname' he => hname ?_⟩
    rwa [inj_on_of_nodup_map h ho ho' he]
  · rintro ⟨⟨o, ho, rfl⟩, hother⟩
    exact ⟨o, ⟨ho, fun hname => hother o ho hname rfl⟩, rfl⟩

/-- **Step lemma.** Principals are revoked, and this ends exactly when none of the name keeps a
view. -/
theorem HoldsAt.unreg (h : M.HoldsAt R s) {aces : MibAces} {t : Option ViewState}
    (hs' : s'.owners = update s.owners k ((s.owners k).filter fun x => x.1 ≠ name))
    (ht : ∀ u, t = some u ↔
      (aces = .read ∨ ∀ x ∈ s.owners k, x.1 = name → x.2 .read = []) ∧ u = s') :
    Simulates (M.unreg k name aces) t := by
  obtain ⟨hends, hspins⟩ := h.models.ownerUnreg name aces (k := k)
    (fun c hc => mem_map_of_mem hc) (h.addrs k)
  rw [h.state, forall_mem_map] at ht
  cases t with
  | none =>
    have hcond := hspins fun hcond => nomatch (ht s').mpr ⟨hcond, rfl⟩
    simp [Simulates, ViewMem.unreg, hcond, Except.map]
  | some u =>
    obtain ⟨hcond, rfl⟩ := (ht u).mp rfl
    obtain ⟨H', R', hloop, hmodels, hR'⟩ := hends hcond
    refine ⟨_, by rw [ViewMem.unreg, hloop]; rfl, R', h.update_owners k _ hmodels
      ((h.addrs k).sublist (filter_sublist.map _)) (fun p => ?_) ?_ fun k' p hk => ?_⟩
    · simp only [owns, mem_filter_addr (h.addrs k), ne_eq, Prod.mk.injEq, true_and]
    · rw [hs', h.state, filter_map]
      refine congrArg _ (map_congr_left fun o ho => ?_)
      have ho := ((mem_filter_addr (h.addrs k)).mp (mem_map_of_mem ho)).2
      have hsame : ∀ a, R' (.owner k o.addr a) = R (.owner k o.addr a) := fun a =>
        hR' _ _ a fun o' ho' hname => by simpa using ho o' ho' hname
      simp [listsOf, hsame]
    · exact ⟨by simp [hk], fun a => hR' _ _ a fun _ _ _ he => hk (Prod.mk.inj he).1⟩

/-! ### Runs -/

theorem map_updateFirst {α β : Type} {g : α → β} {q : α → Bool} {q' : β → Bool} {f : α → α}
    {f' : β → β} (hq : ∀ a, q' (g a) = q a) (hf : ∀ a, g (f a) = f' (g a)) (as : List α) :
    (updateFirst q f as).map g = updateFirst q' f' (as.map g) := by
  induction as with
  | nil => rfl
  | cons a as ih =>
    rw [map_cons, updateFirst, updateFirst, hq, apply_ite (List.map g), map_cons,
      map_cons, hf, ih]

theorem map_updateFirst_eq {α β : Type} {g : α → β} {q : α → Bool} {f : α → α} {as : List α}
    (h : ∀ a ∈ as, q a → g (f a) = g a) : (updateFirst q f as).map g = as.map g := by
  induction as with
  | nil => rfl
  | cons a as ih =>
    obtain ⟨ha, has⟩ := forall_mem_cons.mp h
    rw [updateFirst]
    split_ifs with hq
    · rw [map_cons, map_cons, ha hq]
    · rw [map_cons, map_cons, ih has]

theorem owners_communities (s : ViewState) (cs : List MibCommunity) :
    ViewState.owners { s with communities := cs } =
      update s.owners .community (cs.map fun c => (c.name, c.viewsOf)) := by
  funext k
  cases k <;> simp [ViewState.owners]

theorem owners_users (s : ViewState) (us : List MibUser) :
    ViewState.owners { s with users := us } =
      update s.owners .user (us.map fun u => (u.name, u.viewsOf)) := by
  funext k
  cases k <;> simp [ViewState.owners]

theorem owners_communityCreate (s : ViewState) (name : Name) :
    ViewState.owners { s with communities := communityCreate s.communities name } =
      update s.owners .community (ensureOwner name (s.owners .community)) := by
  have hnil : MibCommunity.viewsOf ⟨name, [], []⟩ = fun _ => [] := by
    funext a
    cases a <;> rfl
  rw [owners_communities, communityCreate, mibCommunitySearch, ensureOwner]
  simp only [ViewState.owners, find?_map, comp_def]
  cases s.communities.find? fun c => c.name = name with
  | none => simp [hnil]
  | some c => simp

theorem owners_communityReg (s : ViewState) (oid : Oid) (name : Name) (aces : MibAces) :
    (mibCommunityReg s oid name aces).owners =
      update (ViewState.owners { s with communities := communityCreate s.communities name })
        .community (updateFirst (fun x => x.1 = name) (mapLists (regList oid aces))
          (ViewState.owners { s with communities := communityCreate s.communities name }
            .community)) := by
  rw [mibCommunityReg, owners_communities, owners_communities s (communityCreate _ _),
    update_idem, update_self]
  refine congrArg _ (map_updateFirst ?_ (fun c => Prod.ext ?_ (funext fun a => ?_)) _)
  · exact fun _ => rfl
  · cases aces <;> rfl
  · cases aces <;> cases a <;> rfl

theorem owners_userReg (s : ViewState) (oid : Oid) (name : Name) (aces : MibAces) :
    (mibUserReg s oid name aces).owners = update s.owners .user
      (updateFirst (fun x => x.1 = name) (mapLists (regList oid aces)) (s.owners .user)) := by
  rw [mibUserReg, owners_users]
  refine congrArg _ (map_updateFirst ?_ (fun u => Prod.ext ?_ (funext fun a => ?_)) _)
  · exact fun _ => rfl
  · cases aces <;> rfl
  · cases aces <;> cases a <;> rfl

theorem owners_userCreate (cr : Crypto) (uninit : UserSecrets) (s : ViewState) (user : Name)
    (authMode : UInt8) (authPhrase : List UInt8) (privMode : UInt8) (privPhrase : List UInt8) :
    (mibUserCreate cr uninit s user authMode authPhrase privMode privPhrase).owners =
      update s.owners .user (ensureOwner user (s.owners .user)) := by
  have hnil : MibUser.viewsOf ⟨user, uninit, [], []⟩ = fun _ => [] := by
    funext a
    cases a <;> rfl
  -- setting the keys changes no list
  have hkeys : ∀ (g : MibUser → UserSecrets) (us : List MibUser), (updateFirst
      (fun u => u.name = user) (fun u => { u with secrets := g u }) us).map
        (fun u => (u.name, u.viewsOf)) = us.map fun u => (u.name, u.viewsOf) :=
    fun _ _ => map_updateFirst_eq fun _ _ _ => rfl
  simp only [mibUserCreate, mibUserSearch, ensureOwner, ViewState.owners, find?_map,
    comp_def]
  cases s.users.find? fun u => u.name = user with
  | none => split <;> simp [owners_users, hkeys, hnil]
  | some u => split <;> simp [owners_users, hkeys]

/-- **Step lemma.** A call does to the memory what it does to the state. -/
theorem Holds.step (h : M.Holds s) (malloc : Xmalloc) (c : ViewCall) :
    Simulates (c.run malloc M) (c.apply s) := by
  obtain ⟨R, h⟩ := h
  cases c with
  | communityReg oid name aces =>
    obtain ⟨c, M₁, hcreate, hsearch, h₁⟩ := h.create malloc (owners_communityCreate s name)
    obtain ⟨M', hreg, hholds⟩ := h₁.reg hsearch malloc (owners_communityReg s oid name aces)
    exact ⟨M', by simp [ViewCall.run, hcreate, hreg], hholds⟩
  | communityUnreg name aces =>
    refine h.unreg
      ((owners_communities s (s.communities.filter fun c => c.name ≠ name)).trans ?_) fun u => ?_
    · rw [ViewState.owners, filter_map]
      rfl
    · rw [ViewCall.apply, mibCommunityUnreg, Option.map_eq_some_iff]
      simp only [communityUnregLoop_eq_some_iff, mem_unregister_iff, Revocable, ViewState.owners,
        forall_mem_map, and_assoc, exists_and_left, exists_eq_left]
      exact and_congr_right fun _ => eq_comm
  | userCreate cr uninit user authMode authPhrase privMode privPhrase =>
    obtain ⟨u, M₁, hcreate, -, h₁⟩ := h.create malloc
      (owners_userCreate cr uninit s user authMode authPhrase privMode privPhrase)
    exact ⟨M₁, by rw [ViewCall.run, hcreate]; rfl, R, h₁⟩
  | userReg oid user aces =>
    cases hu : ownerSearch (M.owners .user) user with
    | some u =>
      obtain ⟨M', hreg, hholds⟩ := h.reg hu malloc (owners_userReg s oid user aces)
      exact ⟨M', by simp [ViewCall.run, hu, hreg], hholds⟩
    | none =>
      -- `mib_user_reg` does nothing for an unknown user
      refine ⟨M, by simp [ViewCall.run, hu], R, h.models, h.addrs, fun k' => ?_⟩
      have hnone : (s.owners .user).find? (fun x => x.1 = user) = none := by simp [h.search, hu]
      rw [mibUserReg, owners_users, map_updateFirst_eq fun u hu hq => ?_, ← h.state]
      · exact congrFun (update_eq_self Principal.user s.owners) k'
      · exact absurd hq (find?_eq_none.mp hnone _ (mem_map_of_mem hu))
  | userUnreg user aces =>
    refine h.unreg
      ((owners_users s (s.users.filter fun u => u.name ≠ user)).trans ?_) fun u => ?_
    · rw [ViewState.owners, filter_map]
      rfl
    · rw [ViewCall.apply, mibUserUnreg, Option.map_eq_some_iff]
      simp only [userUnregLoop_eq_some_iff, mem_unregister_iff, Revocable, ViewState.owners,
        forall_mem_map, and_assoc, exists_and_left, exists_eq_left]
      exact and_congr_right fun _ => eq_comm

end ViewMem

/-- A run of calls, each with the addresses that `xmalloc` gives in it. -/
def runCalls (calls : List (Xmalloc × ViewCall)) (M : ViewMem) : Except Stop ViewMem :=
  calls.foldlM (fun M c => c.2.run c.1 M) M

/-- The same run on the `ViewState`. -/
def applyCalls (calls : List (Xmalloc × ViewCall)) (s : ViewState) : Option ViewState :=
  calls.foldlM (fun s c => c.2.apply s) s

/-- **Run lemma.** A run of calls does to the memory what it does to the state. -/
theorem ViewMem.Holds.runCalls {M : ViewMem} {s : ViewState} (h : M.Holds s)
    (calls : List (Xmalloc × ViewCall)) : Simulates (runCalls calls M) (applyCalls calls s) := by
  induction calls generalizing M s with
  | nil => exact ⟨M, rfl, h⟩
  | cons c calls ih =>
    have hstep := h.step c.1 c.2
    rw [SmithSnmp.runCalls, applyCalls, foldlM_cons, foldlM_cons]
    cases hc : c.2.apply s with
    | none =>
      rw [hc] at hstep
      exact congrArg (· >>= _) hstep
    | some s₁ =>
      rw [hc] at hstep
      obtain ⟨M₁, hrun, h₁⟩ := hstep
      rw [hrun, Stop.ok_bind]
      exact ih h₁

/-- What is allocated is in use: no OID has two views, and a binding is in one list of its view and
in one list of its principal, which exist, and in no other list. -/
structure ViewMem.Accounted (M : ViewMem) : Prop where
  /-- views are shared -/
  oids : (M.heap.views.map ViewObj.oid).Nodup
  /-- the lists, and the bindings in them -/
  lists : ∃ S : Bindings,
    BindRings M.heap.nodes (M.heap.HasList M.owns) S ∧
    (∀ i, M.heap.HasList M.owns i → S i ⊆ M.heap.binds) ∧
    ∀ c ∈ M.heap.binds, ∃ aces, ∀ i, M.heap.HasList M.owns i ∧ c ∈ S i ↔
      i = .view c.kind c.view ∨ i = .owner c.kind c.owner aces

theorem ViewMem.Holds.accounted {M : ViewMem} {s : ViewState} (h : M.Holds s) : M.Accounted := by
  obtain ⟨R, ⟨S, hshaped, -⟩, -, -⟩ := h
  refine ⟨hshaped.oids, S, hshaped.rings, fun i _ c hc => (hshaped.sound hc).1, fun c hc => ?_⟩
  obtain ⟨hview, howner⟩ := hshaped.alive c hc
  obtain ⟨a, ha⟩ := (hshaped.mem_owner _ _ c).mpr ⟨hc, rfl, rfl⟩
  refine ⟨a, fun i => ⟨fun hi => hshaped.eq_or_eq ha hi.2, ?_⟩⟩
  rintro (rfl | rfl)
  · exact ⟨hview, (hshaped.mem_view _ _ c).mpr ⟨hc, rfl, rfl⟩⟩
  · exact ⟨howner, ha⟩

end SmithSnmp
