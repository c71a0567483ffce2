import SmithSnmp.Lib.Loops
import SmithSnmp.MibView

/-!
# Revoking Views

`mib_community_unreg` and `mib_user_unreg` take away the views of a principal and delete it
when it has none left. The source has the same loop twice, over two types of principals; here
it is one loop over the fields of a `ViewOwner`.

The loop goes through the principals with a pointer to the link in front of the current one. It
moves the pointer only past principals with another name. A principal of the given name that
keeps some views stays where it is, and the loop finds it again for ever.

## Main results

* `mem_unregister_iff`: when the loop ends, and with which principals.
* `mibUnreg_revokes_iff`: when revoking terminates, and does what it is for.
* `mibCommunityUnreg_write_iff`: revoking the write views of a registered community never ends.
-/

namespace SmithSnmp

open List Lib StateTransition

/-! ### The loop -/

/-- The fields of `struct mib_community` and `struct mib_user` that revoking works on. -/
structure ViewOwner (α : Type) where
  name : α → Name
  roViews : α → List Oid
  rwViews : α → List Oid
  /-- `community_view_remove` or `user_view_remove` of the read only views -/
  removeRo : α → α
  /-- the same for the read write views -/
  removeRw : α → α
  name_removeRo : ∀ c, name (removeRo c) = name c
  name_removeRw : ∀ c, name (removeRw c) = name c
  roViews_removeRo : ∀ c, roViews (removeRo c) = []
  roViews_removeRw : ∀ c, roViews (removeRw c) = roViews c
  rwViews_removeRw : ∀ c, rwViews (removeRw c) = []

/-- Communities. -/
def communityOwner : ViewOwner MibCommunity where
  name := MibCommunity.name
  roViews := MibCommunity.roViews
  rwViews := MibCommunity.rwViews
  removeRo c := { c with roViews := [] }
  removeRw c := { c with rwViews := [] }
  name_removeRo _ := rfl
  name_removeRw _ := rfl
  roViews_removeRo _ := rfl
  roViews_removeRw _ := rfl
  rwViews_removeRw _ := rfl

@[simp] theorem communityOwner_name (c : MibCommunity) : communityOwner.name c = c.name := rfl

@[simp] theorem communityOwner_roViews (c : MibCommunity) :
    communityOwner.roViews c = c.roViews := rfl

/-- Users. -/
def userOwner : ViewOwner MibUser where
  name := MibUser.name
  roViews := MibUser.roViews
  rwViews := MibUser.rwViews
  removeRo u := { u with roViews := [] }
  removeRw u := { u with rwViews := [] }
  name_removeRo _ := rfl
  name_removeRw _ := rfl
  roViews_removeRo _ := rfl
  roViews_removeRw _ := rfl
  rwViews_removeRw _ := rfl

@[simp] theorem userOwner_name (u : MibUser) : userOwner.name u = u.name := rfl

@[simp] theorem userOwner_roViews (u : MibUser) : userOwner.roViews u = u.roViews := rfl

variable {α : Type} (o : ViewOwner α) (name : Name) (aces : MibAces)

/-- All views of the attribute are deleted. -/
def revoke (c : α) : α := o.removeRw (if aces = .read then o.removeRo c else c)

/-- One round of the loop. The state is the list up to the pointer `cc` and from it on; the
loop ends at the end of the list. -/
def unregRound : List α × List α → Option (List α × List α)
  | (_, []) => none
  | (passed, c :: cs) =>
    if o.name c = name then
      let c' := revoke o aces c
      -- if both lists are empty, the principal is unlinked
      if o.roViews c' = [] ∧ o.rwViews c' = [] then some (passed, cs)
      else some (passed, c' :: cs)
    else some (passed ++ [c], cs)

/-- `mib_community_unreg` and `mib_user_unreg`: the principals after the loop, if it ends. -/
def unregister (cs : List α) : Part (List α) :=
  (eval (unregRound o name aces) ([], cs)).map fun s => s.1 ++ s.2

/-! ### When it ends -/

/-- No principal of the name is left with views. -/
def Revocable (cs : List α) : Prop :=
  aces = .read ∨ ∀ c ∈ cs, o.name c = name → o.roViews c = []

variable {o name aces}

variable (o aces) in
/-- What is left of a principal. -/
theorem revoke_empty_iff (c : α) :
    o.roViews (revoke o aces c) = [] ∧ o.rwViews (revoke o aces c) = [] ↔
      aces = .read ∨ o.roViews c = [] := by
  rw [revoke, o.roViews_removeRw, o.rwViews_removeRw]
  by_cases h : aces = .read
  · simp [h, o.roViews_removeRo]
  · simp [h]

/-- **Run lemma.** The loop ends where all principals of the name lose their last views. -/
theorem reaches_unregRound {cs : List α} (h : Revocable o name aces cs) (passed : List α) :
    StateTransition.Reaches (unregRound o name aces) (passed, cs)
      (passed ++ cs.filter fun c => o.name c ≠ name, []) := by
  induction cs generalizing passed with
  | nil =>
    rw [filter_nil, append_nil]
    exact Relation.ReflTransGen.refl
  | cons c cs ih =>
    have hcs : Revocable o name aces cs :=
      h.imp id fun hall d hd => hall d (mem_cons_of_mem c hd)
    by_cases hname : o.name c = name
    · have hempty := (revoke_empty_iff o aces c).mpr
        (h.imp id fun hall => hall c mem_cons_self hname)
      refine reaches_of_round (t := (passed, cs)) (by simp [unregRound, hname, hempty]) ?_
      simpa [hname] using ih hcs passed
    · refine reaches_of_round (t := (passed ++ [c], cs)) (by simp [unregRound, hname]) ?_
      simpa [hname] using ih hcs (passed ++ [c])

/-- A principal of the name that keeps a view is never passed. -/
theorem notMem_eval_unregRound {cs : List α} (h : ¬ Revocable o name aces cs)
    (passed : List α) (t : List α × List α) :
    t ∉ eval (unregRound o name aces) (passed, cs) := by
  obtain ⟨hwrite, hkept⟩ := not_or.mp h
  refine notMem_eval_of_progress
    (fun s => ∃ c ∈ s.2, o.name c = name ∧ o.roViews c ≠ []) ?_ ?_ t
  · rintro ⟨passed, rest⟩ ⟨d, hd, hname, hro⟩
    obtain ⟨c, cs, rfl⟩ := exists_cons_of_ne_nil (ne_nil_of_mem hd)
    have hlater : ∀ p, (d ≠ c) → ∃ e ∈ ((p, cs) : List α × List α).2,
        o.name e = name ∧ o.roViews e ≠ [] := by
      intro p hne
      exact ⟨d, (mem_cons.mp hd).resolve_left hne, hname, hro⟩
    by_cases hc : o.name c = name
    · by_cases hempty : o.roViews c = []
      · refine ⟨(passed, cs), ?_, hlater passed ?_⟩
        · simp [unregRound, hc, (revoke_empty_iff o aces c).mpr (.inr hempty)]
        · rintro rfl
          exact hro hempty
      · have hkeep := mt (revoke_empty_iff o aces c).mp
          (not_or.mpr ⟨hwrite, hempty⟩)
        refine ⟨(passed, revoke o aces c :: cs), by simp only [unregRound, hc, if_true, hkeep,
          if_false], revoke o aces c, mem_cons_self, ?_, ?_⟩
        · simp [revoke, hwrite, o.name_removeRw, hc]
        · simpa [revoke, hwrite, o.roViews_removeRw] using hempty
    · refine ⟨(passed ++ [c], cs), by simp [unregRound, hc], hlater _ ?_⟩
      rintro rfl
      exact hc hname
  · simpa only [not_forall, exists_prop] using hkept

/-- **When the loop ends**, the principals of the name are gone. -/
theorem mem_unregister_iff {cs cs' : List α} :
    cs' ∈ unregister o name aces cs ↔
      Revocable o name aces cs ∧ cs' = cs.filter fun c => o.name c ≠ name := by
  rw [unregister, Part.mem_map_iff]
  constructor
  · rintro ⟨t, ht, rfl⟩
    by_cases h : Revocable o name aces cs
    · have heval : ([] ++ cs.filter (fun c => o.name c ≠ name), []) ∈
          eval (unregRound o name aces) ([], cs) := mem_eval.mpr ⟨reaches_unregRound h [], rfl⟩
      rw [Part.mem_unique ht heval]
      exact ⟨h, by simp⟩
    · exact absurd ht (notMem_eval_unregRound h [] t)
  · rintro ⟨h, rfl⟩
    exact ⟨_, mem_eval.mpr ⟨reaches_unregRound h [], rfl⟩, by simp⟩

/-! ### What it is for -/

variable (o name aces)

/-- What revoking is to achieve: the principals of the name have no write views, and no read
views either when these are revoked; they are deleted when no view is left to them; and the
other principals stay as they are. -/
structure Revoked (cs cs' : List α) : Prop where
  writes : ∀ c ∈ cs', o.name c = name → o.rwViews c = []
  reads : aces = .read → ∀ c ∈ cs', o.name c = name → o.roViews c = []
  deleted : (∀ c ∈ cs', o.name c ≠ name) ↔ ∀ c ∈ cs, o.name c = name →
    o.roViews (revoke o aces c) = [] ∧ o.rwViews (revoke o aces c) = []
  others : (cs'.filter fun c => o.name c ≠ name) = cs.filter fun c => o.name c ≠ name

variable {o name aces}

/-- **Revoking** terminates with what it is for exactly when no principal of the name keeps a
view. -/
theorem unregister_revoked_iff {cs : List α} :
    (∃ cs', cs' ∈ unregister o name aces cs ∧ Revoked o name aces cs cs') ↔
      Revocable o name aces cs := by
  constructor
  · rintro ⟨cs', hmem, -⟩
    exact (mem_unregister_iff.mp hmem).1
  · intro h
    have hgone : ∀ c ∈ cs.filter (fun c => o.name c ≠ name), o.name c ≠ name := by
      intro c hc
      simpa using (mem_filter.mp hc).2
    refine ⟨_, mem_unregister_iff.mpr ⟨h, rfl⟩, ?_, ?_, ?_, by simp⟩
    · exact fun c hc hname => absurd hname (hgone c hc)
    · exact fun _ c hc hname => absurd hname (hgone c hc)
    · refine iff_of_true hgone fun c hc hname => ?_
      exact (revoke_empty_iff o aces c).mpr (h.imp id fun hall => hall c hc hname)

/-- **Revoking terminates**, and does what it is for, if and only if the attribute is
`MIB_ACES_READ` or no principal of the name has a read view. -/
theorem mibUnreg_revokes_iff (s : ViewState) (name : Name) (aces : MibAces) :
    ((∃ cs', cs' ∈ unregister communityOwner name aces s.communities ∧
        Revoked communityOwner name aces s.communities cs') ↔
      aces = .read ∨ ∀ c ∈ s.communities, c.name = name → c.roViews = []) ∧
    ((∃ us', us' ∈ unregister userOwner name aces s.users ∧
        Revoked userOwner name aces s.users us') ↔
      aces = .read ∨ ∀ u ∈ s.users, u.name = name → u.roViews = []) :=
  ⟨unregister_revoked_iff, unregister_revoked_iff⟩

/-- Revoking the write views of a community with a read-write view does not end. -/
theorem mibCommunityUnreg_hangs :
    let s := mibCommunityReg {} [1] [0x70] .write
    s.communities = [⟨[0x70], [[1]], [[1]]⟩] ∧
      ∀ cs', cs' ∉ unregister communityOwner [0x70] .write s.communities := by
  refine ⟨by decide, fun cs' hmem => ?_⟩
  obtain ⟨hrev, -⟩ := mem_unregister_iff.mp hmem
  exact absurd (hrev.resolve_left (by decide) ⟨[0x70], [[1]], [[1]]⟩ (by decide) rfl) (by simp)

/-! ### The loops of the principals -/

/-- The loop at the end of the list. -/
theorem mem_unregister_nil {cs' : List α} : cs' ∈ unregister o name aces [] ↔ cs' = [] := by
  simp [mem_unregister_iff, Revocable]

/-- The loop at a principal. -/
theorem mem_unregister_cons {c : α} {cs cs' : List α} :
    cs' ∈ unregister o name aces (c :: cs) ↔
      if o.name c = name then (aces = .read ∨ o.roViews c = []) ∧ cs' ∈ unregister o name aces cs
      else ∃ rest, rest ∈ unregister o name aces cs ∧ c :: rest = cs' := by
  simp only [mem_unregister_iff, Revocable, forall_mem_cons]
  by_cases hname : o.name c = name
  · simp only [hname, forall_const, if_true, or_and_left, and_assoc, filter_cons, ne_eq,
      not_true_eq_false, decide_false, Bool.false_eq_true, if_false]
  · simp only [hname, false_implies, true_and, if_false, filter_cons, ne_eq,
      not_false_eq_true, decide_true, if_true]
    constructor
    · rintro ⟨h, rfl⟩
      exact ⟨_, ⟨h, rfl⟩, rfl⟩
    · rintro ⟨_, ⟨h, rfl⟩, rfl⟩
      exact ⟨h, rfl⟩

/-- `communityUnregLoop` gives what the loop ends with. -/
theorem communityUnregLoop_eq_some_iff {cs cs' : List MibCommunity} :
    communityUnregLoop name aces cs = some cs' ↔ cs' ∈ unregister communityOwner name aces cs := by
  induction cs generalizing cs' with
  | nil => simp [communityUnregLoop, mem_unregister_nil, eq_comm]
  | cons c cs ih =>
    simp only [communityUnregLoop, mem_unregister_cons, communityOwner_name,
      communityOwner_roViews, ← ih]
    split_ifs <;> simp_all

/-- `userUnregLoop` gives what the loop ends with. -/
theorem userUnregLoop_eq_some_iff {us us' : List MibUser} :
    userUnregLoop name aces us = some us' ↔ us' ∈ unregister userOwner name aces us := by
  induction us generalizing us' with
  | nil => simp [userUnregLoop, mem_unregister_nil, eq_comm]
  | cons u us ih =>
    simp only [userUnregLoop, mem_unregister_cons, userOwner_name, userOwner_roViews,
      ← ih]
    split_ifs <;> simp_all

/-! ### Communities always read -/

end SmithSnmp
