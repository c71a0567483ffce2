import SmithSnmp.Lib.Prefix
import SmithSnmp.MibView
import SmithSnmp.MsgViews

/-!
# Canonical Views

The configuration loader registers the views of a principal in the order in which Lua
enumerates a table. The lists that result do not depend on this order: a list holds the
prefix-minimal OIDs among those that were registered for it, in ascending order.

## Main results

* `Canonical.viewBind`: binding an OID adds it to the set of OIDs of which the list is the
  canonical one.
* `registered_views_canonical`: what holds of the lists of a community or a user after any
  sequence of registrations.
-/

namespace SmithSnmp

open List Lib

variable {S : Set Oid} {views : List Oid} {oid : Oid} {regs : List (Oid × MibAces)}

/-! ### The canonical list of a set of OIDs -/

/-- The list holds the prefix-minimal OIDs of the set, in ascending order. -/
structure Canonical (S : Set Oid) (views : List Oid) : Prop where
  small : ∀ oid ∈ S, Oid.Small oid
  sorted : views.Pairwise (· < ·)
  mem : ∀ v, v ∈ views ↔ v ∈ prefixMinimal S

theorem canonical_nil : Canonical ∅ [] :=
  ⟨by simp, List.Pairwise.nil, by simp [prefixMinimal]⟩

theorem Canonical.unique {l l' : List Oid} (h : Canonical S l) (h' : Canonical S l') : l = l' :=
  h.sorted.eq_of_mem_iff h'.sorted fun v => (h.mem v).trans (h'.mem v).symm

/-- What the list covers. -/
theorem Canonical.viewCover_iff (h : Canonical S views) (oid : Oid) :
    viewCover views oid = true ↔ ∃ w ∈ S, w <+: oid := by
  rw [← cover_prefixMinimal_iff, viewCover, any_eq_true]
  refine exists_congr fun v => and_congr (h.mem v) ?_
  rw [decide_eq_true_iff, oidCover_pos_iff]

theorem Canonical.antichain (h : Canonical S views) : Antichain views := by
  refine h.sorted.imp_of_mem fun {a b} ha hb hlt => ?_
  obtain ⟨haS, hamin⟩ := (h.mem a).mp ha
  obtain ⟨hbS, hbmin⟩ := (h.mem b).mp hb
  exact ⟨fun hab => hlt.ne (hbmin a haS hab), fun hba => hlt.ne' (hamin b hbS hba)⟩

/-- The filter stops if and only if a view covers the OID. -/
theorem viewFilter_fst_iff (oid : Oid) (views : List Oid) :
    (viewFilter oid views).1 = true ↔ ∃ v ∈ views, v <+: oid := by
  induction views with
  | nil => simp [viewFilter]
  | cons v views ih =>
    rw [viewFilter, exists_mem_cons_iff, ← oidCover_pos_iff, ← ih]
    split
    · next hpos => simp [hpos]
    · next hpos =>
        split
        · simp [hpos]
        · simp [hpos]

/-- A filter that does not stop deletes the views that the OID covers. -/
theorem mem_viewFilter_snd (h : ¬ ∃ v ∈ views, v <+: oid) (v : Oid) :
    v ∈ (viewFilter oid views).2 ↔ v ∈ views ∧ ¬ oid <+: v := by
  induction views with
  | nil => simp [viewFilter]
  | cons u views ih =>
    rw [exists_mem_cons_iff, not_or] at h
    have hpos : ¬ 0 < oidCover u oid := fun hp => h.1 ((oidCover_pos_iff u oid).mp hp)
    have hneg : oidCover u oid < 0 ↔ oid <+: u := by
      rw [oidCover_neg_iff]
      exact and_iff_left_of_imp fun _ he => h.1 (he ▸ prefix_refl _)
    rw [viewFilter, if_neg hpos]
    by_cases hcov : oid <+: u
    · rw [if_pos (hneg.mpr hcov), ih h.2, mem_cons]
      refine ⟨fun hv => ⟨.inr hv.1, hv.2⟩, ?_⟩
      rintro ⟨rfl | hv, hnot⟩
      · exact absurd hcov hnot
      · exact ⟨hv, hnot⟩
    · rw [if_neg (mt hneg.mp hcov), mem_cons, mem_cons, ih h.2]
      constructor
      · rintro (rfl | hv)
        · exact ⟨.inl rfl, hcov⟩
        · exact ⟨.inr hv.1, hv.2⟩
      · rintro ⟨rfl | hv, hnot⟩
        · exact .inl rfl
        · exact .inr ⟨hv, hnot⟩

theorem viewFilter_snd_of_cover (ha : Antichain views) (h : ∃ v ∈ views, v <+: oid) :
    (viewFilter oid views).2 = views := by
  induction views with
  | nil => rfl
  | cons u views ih =>
    obtain ⟨hhead, htail⟩ := pairwise_cons.mp ha
    rw [viewFilter]
    split
    · rfl
    · next hpos =>
        have hrest : ∃ v ∈ views, v <+: oid := by
          obtain ⟨v, hv, hvo⟩ := h
          rcases mem_cons.mp hv with rfl | hv
          · exact absurd ((oidCover_pos_iff _ _).mpr hvo) hpos
          · exact ⟨v, hv, hvo⟩
        have hneg : ¬ oidCover u oid < 0 := by
          intro hneg
          obtain ⟨v, hv, hvo⟩ := hrest
          exact (hhead v hv).2 (hvo.trans ((oidCover_neg_iff u oid).mp hneg).1)
        rw [if_neg hneg, ih htail hrest]

/-- **Step lemma.** Binding an OID adds it to the set. -/
theorem Canonical.viewBind (h : Canonical S views) (ho : Oid.Small oid) :
    Canonical (insert oid S) (viewBind oid views) := by
  have hsmall : ∀ v ∈ views, Oid.Small v := fun v hv => h.small v ((h.mem v).mp hv).1
  have hsorted : SmallSorted (SmithSnmp.viewBind oid views) :=
    SmallSorted.viewBind ⟨hsmall, h.sorted⟩ ho
  have hcover : (∃ v ∈ views, v <+: oid) ↔ ∃ v ∈ prefixMinimal S, v <+: oid :=
    exists_congr fun v => and_congr_left' (h.mem v)
  refine ⟨?_, hsorted.2, fun v => ?_⟩
  · rintro w (rfl | hw)
    · exact ho
    · exact h.small w hw
  · rw [SmithSnmp.viewBind]
    have hstop := viewFilter_fst_iff oid views
    by_cases hcov : ∃ v ∈ views, v <+: oid
    · rw [if_pos (hstop.mpr hcov), viewFilter_snd_of_cover h.antichain hcov,
        prefixMinimal_insert_of_cover (hcover.mp hcov)]
      exact h.mem v
    · rw [if_neg (mt hstop.mp hcov), (viewAdd_perm oid _).mem_iff, mem_cons, mem_viewFilter_snd hcov,
        prefixMinimal_insert_of_not_cover (mt hcover.mpr hcov), h.mem v]
      rfl

/-! ### Iterating over a list -/

/-- The views that repeated calls of `next_view` return until one returns `NULL`; `none` when
`fuel` calls do not suffice. -/
def iterateViews (views : List Oid) : ℕ → Option Oid → Option (List Oid)
  | 0, _ => none
  | fuel + 1, v =>
    match nextView views v with
    | none => some []
    | some v' => (iterateViews views fuel (some v')).map (v' :: ·)

/-- From `NULL` the iteration returns the views of the list in order. -/
theorem iterateViews_none (h : views.Nodup) :
    iterateViews views (views.length + 1) none = some views := by
  have hsome : ∀ r l v, views = l ++ v :: r →
      iterateViews views (r.length + 1) (some v) = some r := by
    intro r
    induction r with
    | nil =>
      rintro l v rfl
      have hv : v ∉ l := by
        intro hv
        exact (nodup_append.mp h).2.2 v hv v (by simp) rfl
      rw [iterateViews, nextView_append hv]
      rfl
    | cons u r ih =>
      rintro l v hviews
      have hv : v ∉ l := by
        rw [hviews] at h
        intro hv
        exact (nodup_append.mp h).2.2 v hv v (by simp) rfl
      have hnext : nextView views (some v) = some u := by
        rw [hviews, nextView_append hv]
        rfl
      have hrest := ih (l ++ [v]) u (by simp [hviews])
      rw [iterateViews, hnext]
      simp only [length_cons, hrest, Option.map_some]
  cases views with
  | nil => rfl
  | cons v views =>
    rw [iterateViews, nextView_none]
    have hrest := hsome views [] v rfl
    simp only [head?_cons, length_cons, hrest, Option.map_some]

/-! ### Registrations -/

/-- The OIDs that are registered for a list: all of them for reading, those registered with
`MIB_ACES_WRITE` for writing. -/
def boundOids (regs : List (Oid × MibAces)) : MibAces → Set Oid
  | .read => {oid | ∃ aces, (oid, aces) ∈ regs}
  | .write => {oid | (oid, .write) ∈ regs}

/-- One registration on the two lists of a principal. -/
def bindLists (views : MibAces → List Oid) (r : Oid × MibAces) (aces : MibAces) : List Oid :=
  if aces = .read ∨ r.2 = .write then viewBind r.1 (views aces) else views aces

/-- **Run lemma.** After any registrations from empty lists, both lists are canonical. -/
theorem canonical_bindLists (hsmall : ∀ r ∈ regs, Oid.Small r.1) (aces : MibAces) :
    Canonical (boundOids regs aces) (regs.foldl bindLists (fun _ => []) aces) := by
  induction regs using List.reverseRecOn generalizing aces with
  | nil =>
    have hnil : boundOids [] aces = ∅ := by cases aces <;> simp [boundOids]
    rw [hnil]
    exact canonical_nil
  | append_singleton regs r ih =>
    have hinit := fun aces => ih (fun r' hr' => hsmall r' (by simp [hr'])) aces
    rw [foldl_append, foldl_cons, foldl_nil, bindLists]
    split
    · next hbind =>
        have hset : boundOids (regs ++ [r]) aces = insert r.1 (boundOids regs aces) := by
          ext oid
          cases aces with
          | read => simp [boundOids, Prod.ext_iff, or_comm, exists_or]
          | write =>
            have hw : r.2 = .write := by simpa using hbind
            simp [boundOids, Prod.ext_iff, or_comm, hw]
        rw [hset]
        exact (hinit aces).viewBind (hsmall r (by simp))
    · next hbind =>
        have hset : boundOids (regs ++ [r]) aces = boundOids regs aces := by
          ext oid
          cases aces with
          | read => exact absurd (.inl rfl) hbind
          | write =>
            have hw : r.2 ≠ .write := fun h => hbind (.inr h)
            simp [boundOids, Prod.ext_iff, hw.symm]
        rw [hset]
        exact hinit aces

/-- The lists of a community; an unknown one has no views. -/
def communityViews (s : ViewState) (name : Name) (aces : MibAces) : List Oid :=
  ((mibCommunitySearch s.communities name).map (·.viewsOf aces)).getD []

/-- The lists of a user. -/
def userViews (s : ViewState) (name : Name) (aces : MibAces) : List Oid :=
  ((mibUserSearch s.users name).map (·.viewsOf aces)).getD []

/-- A search finds the updated element. -/
theorem find?_updateFirst {α : Type} {p : α → Bool} {f : α → α} (hf : ∀ a, p (f a) = p a)
    (as : List α) : (updateFirst p f as).find? p = (as.find? p).map f := by
  induction as with
  | nil => rfl
  | cons a as ih =>
    rw [updateFirst]
    cases ha : p a with
    | true => simp [ha, hf]
    | false => simp [ha, ih]

theorem communityViews_reg (s : ViewState) (name : Name) (r : Oid × MibAces) :
    communityViews (mibCommunityReg s r.1 name r.2) name = bindLists (communityViews s name) r := by
  obtain ⟨oid, aces₀⟩ := r
  funext aces
  rw [communityViews, bindLists, mibCommunityReg, mibCommunitySearch,
    find?_updateFirst (fun c => by cases aces₀ <;> rfl), communityViews, communityCreate]
  cases hsearch : mibCommunitySearch s.communities name with
  | none => cases aces₀ <;> cases aces <;> simp [MibCommunity.viewsOf, communityViewBind]
  | some c =>
    rw [mibCommunitySearch] at hsearch
    cases aces₀ <;> cases aces <;>
      simp [hsearch, MibCommunity.viewsOf, communityViewBind]

theorem userViews_reg (s : ViewState) (name : Name) (r : Oid × MibAces)
    (hu : mibUserSearch s.users name ≠ none) :
    userViews (mibUserReg s r.1 name r.2) name = bindLists (userViews s name) r ∧
      mibUserSearch (mibUserReg s r.1 name r.2).users name ≠ none := by
  obtain ⟨oid, aces₀⟩ := r
  obtain ⟨u, hsearch⟩ := Option.ne_none_iff_exists'.mp hu
  have hafter : mibUserSearch (mibUserReg s oid name aces₀).users name =
      some (userViewBind oid .read
        (if aces₀ = .write then userViewBind oid .write u else u)) := by
    rw [mibUserReg, mibUserSearch, find?_updateFirst (fun u => by cases aces₀ <;> rfl)]
    rw [mibUserSearch] at hsearch
    rw [hsearch]
    rfl
  refine ⟨funext fun aces => ?_, by simp [hafter]⟩
  rw [userViews, hafter, bindLists, userViews, hsearch]
  cases aces₀ <;> cases aces <;> simp [MibUser.viewsOf, userViewBind]

/-- A sequence of `mib_community_reg` calls for one community. -/
def communityRegs (name : Name) (s : ViewState) (regs : List (Oid × MibAces)) : ViewState :=
  regs.foldl (fun s r => mibCommunityReg s r.1 name r.2) s

/-- A sequence of `mib_user_reg` calls for one user. -/
def userRegs (name : Name) (s : ViewState) (regs : List (Oid × MibAces)) : ViewState :=
  regs.foldl (fun s r => mibUserReg s r.1 name r.2) s

theorem communityViews_regs (name : Name) (regs : List (Oid × MibAces)) (s : ViewState) :
    communityViews (communityRegs name s regs) name =
      regs.foldl bindLists (communityViews s name) := by
  induction regs generalizing s with
  | nil => rfl
  | cons r regs ih =>
    rw [communityRegs, foldl_cons, foldl_cons, ← communityViews_reg, ← ih]
    rfl

theorem userViews_regs (name : Name) (regs : List (Oid × MibAces)) {s : ViewState}
    (hu : mibUserSearch s.users name ≠ none) :
    userViews (userRegs name s regs) name = regs.foldl bindLists (userViews s name) := by
  induction regs generalizing s with
  | nil => rfl
  | cons r regs ih =>
    obtain ⟨hviews, hu'⟩ := userViews_reg s name r hu
    rw [userRegs, foldl_cons, foldl_cons, ← hviews, ← ih hu']
    rfl

/-! ### What the lists are -/

/-- The lists `views` of a principal after the registrations `regs`: they are the minimal
OIDs in ascending order, cover what a registered OID covers, and an iteration over one of
them returns each view once and in order. -/
structure CanonicalFor (regs : List (Oid × MibAces)) (views : MibAces → List Oid) : Prop where
  minimal : ∀ aces v, v ∈ views aces ↔ v ∈ prefixMinimal (boundOids regs aces)
  ascending : ∀ aces, (views aces).Pairwise (· < ·)
  cover : ∀ aces oid, viewCover (views aces) oid = true ↔
    ∃ w ∈ boundOids regs aces, w <+: oid
  readable : ∀ oid, viewCover (views .write) oid = true → viewCover (views .read) oid = true
  iterate : ∀ aces, iterateViews (views aces) ((views aces).length + 1) none = some (views aces)

/-- The lists that registrations build from empty ones. -/
theorem canonicalFor_bindLists (hsmall : ∀ r ∈ regs, Oid.Small r.1) :
    CanonicalFor regs (regs.foldl bindLists fun _ => []) := by
  have hcanon := canonical_bindLists hsmall
  refine ⟨fun aces => (hcanon aces).mem, fun aces => (hcanon aces).sorted,
    fun aces => (hcanon aces).viewCover_iff, fun oid => ?_,
    fun aces => iterateViews_none (hcanon aces).antichain.nodup⟩
  rw [(hcanon .write).viewCover_iff, (hcanon .read).viewCover_iff]
  rintro ⟨w, hw, hwo⟩
  exact ⟨w, ⟨.write, hw⟩, hwo⟩

/-- The order of the registrations does not matter. -/
theorem bindLists_perm {regs' : List (Oid × MibAces)} (hsmall : ∀ r ∈ regs, Oid.Small r.1)
    (hperm : regs'.Perm regs) :
    regs'.foldl bindLists (fun _ => []) = regs.foldl bindLists fun _ => [] := by
  have hset : boundOids regs' = boundOids regs := by
    funext aces
    cases aces <;> simp [boundOids, hperm.mem_iff]
  funext aces
  have hcanon' := canonical_bindLists (fun r hr => hsmall r (hperm.mem_iff.mp hr)) aces
  rw [hset] at hcanon'
  exact hcanon'.unique (canonical_bindLists hsmall aces)

/-- The user `u`, created without views. -/
def newUserViews : ViewState :=
  mibUserCreate plainCrypto ⟨0, 0, [], []⟩ {} [0x75] snmpUserAuthMd5 [0x70] 0 []

/-- Registrations of which the last covers the first. -/
def nestedRegs : List (Oid × MibAces) := [([1, 3, 6], .write), ([1, 4], .read), ([1, 3], .read)]

example : communityViews (communityRegs [0x75] newUserViews nestedRegs) [0x75] .read =
    [[1, 3], [1, 4]] := by
  decide

end SmithSnmp
