import Mathlib.Data.List.Pairwise
import SmithSnmp.Asn1

/-!
# MIB Views

The communities, the users and their views of `core/mib_view.c`. Communities and users
carry the same two lists of views and the source has the same text twice for them; the
list functions below stand for both copies.

A view is an object that `view_create` shares between all principals that name its OID,
so two of them are the same object exactly when their OIDs are equal: a view is modelled
by its OID.

## Main results

* `ViewState.Reachable.antichain`: no view of a list covers another one, whatever the
  sub-identifiers.
* `ViewState.Reachable.sorted`: lists of views with sub-identifiers below `2 ^ 31` are
  strictly ascending.
-/

namespace SmithSnmp

open List Option

variable {oid : Oid} {views : List Oid}

/-- A C string without its terminating NUL. -/
abbrev Name := List UInt8

/-- The C string at the start of an octet string: it ends at the first NUL. -/
def cString (octets : List UInt8) : Name := octets.takeWhile (· ≠ 0)

/-- `enum mib_aces_attr` -/
inductive MibAces where
  | read
  | write
deriving DecidableEq, Repr

/-- The authentication and privacy fields of `struct mib_user`. -/
structure UserSecrets where
  authMode : UInt8
  privMode : UInt8
  /-- the union `auth_key` -/
  authKey : List UInt8
  /-- the union `priv_key` -/
  privKey : List UInt8
deriving DecidableEq, Repr

/-- `struct mib_community` -/
structure MibCommunity where
  name : Name
  roViews : List Oid
  rwViews : List Oid
deriving DecidableEq, Repr

/-- `struct mib_user` -/
structure MibUser where
  name : Name
  /-- keys and algorithms -/
  secrets : UserSecrets
  roViews : List Oid
  rwViews : List Oid
deriving DecidableEq, Repr

/-- The cryptographic functions of `3rd/crypto`. The key functions localise a password
with the engine ID; a MAC function gives its return code and the MAC. -/
structure Crypto where
  md5Key : List UInt8 → List UInt8
  sha1Key : List UInt8 → List UInt8
  /-- `MD5_hmac` of a message under a secret -/
  md5Hmac : List UInt8 → List UInt8 → Int32 × List UInt8
  /-- `SHA1_hmac` of a message under a secret -/
  sha1Hmac : List UInt8 → List UInt8 → Int32 × List UInt8
  /-- `AES_Encrypt` under a key and an initial vector -/
  aesEncrypt : List UInt8 → List UInt8 → List UInt8 → List UInt8
  /-- `AES_Decrypt` under a key and an initial vector -/
  aesDecrypt : List UInt8 → List UInt8 → List UInt8 → List UInt8
  /-- AES in its feedback mode: the cipher text is as long as the plain text -/
  aesEncrypt_length : ∀ key iv msg, (aesEncrypt key iv msg).length = msg.length

/-- `SNMP_USER_AUTH_MD5` -/
def snmpUserAuthMd5 : UInt8 := 0
/-- `SNMP_USER_AUTH_SHA1` -/
def snmpUserAuthSha1 : UInt8 := 1
/-- `SNMP_USER_ENCRYPT_AES` -/
def snmpUserEncryptAes : UInt8 := 1

/-! ### View lists -/

/-- `community_view_filter` and `user_view_filter`: stop with `true` at a view that covers
the OID; views covered by it are deleted on the way. -/
def viewFilter (oid : Oid) : List Oid → Bool × List Oid
  | [] => (false, [])
  | v :: views =>
    if 0 < oidCover v oid then (true, v :: views)
    else if oidCover v oid < 0 then viewFilter oid views
    else ((viewFilter oid views).1, v :: (viewFilter oid views).2)

/-- `community_view_add` and `user_view_add`: before the first view that compares
greater. -/
def viewAdd (oid : Oid) : List Oid → List Oid
  | [] => [oid]
  | v :: views => if 0 < oidCmp v oid then oid :: v :: views else v :: viewAdd oid views

/-- `community_view_bind` and `user_view_bind` on the list of the attribute. -/
def viewBind (oid : Oid) (views : List Oid) : List Oid :=
  if (viewFilter oid views).1 then (viewFilter oid views).2
  else viewAdd oid (viewFilter oid views).2

/-- `mib_community_next_view` and `mib_user_next_view`: the view after `v` in the list,
the first one for `NULL`. -/
def nextView : List Oid → Option Oid → Option Oid
  | [], _ => none
  | c :: _, none => some c
  | c :: views, some v => if v = c then views.head? else nextView views (some v)

/-- `mib_community_view_cover` and `mib_user_view_cover` -/
def viewCover (views : List Oid) (oid : Oid) : Bool := views.any fun v => 0 < oidCover v oid

/-! ### Principals -/

/-- `mib_communities` and `mib_users` -/
structure ViewState where
  communities : List MibCommunity := []
  users : List MibUser := []

/-- `mib_community_search` -/
def mibCommunitySearch (communities : List MibCommunity) (name : Name) : Option MibCommunity :=
  communities.find? fun c => c.name = name

/-- `mib_user_search` -/
def mibUserSearch (users : List MibUser) (name : Name) : Option MibUser :=
  users.find? fun u => u.name = name

/-- An update of the first element that satisfies `p`, the one a search returns. -/
def updateFirst {α : Type} (p : α → Bool) (f : α → α) : List α → List α
  | [] => []
  | a :: as => if p a then f a :: as else a :: updateFirst p f as

/-- `community_view_bind` -/
def communityViewBind (oid : Oid) (aces : MibAces) (c : MibCommunity) : MibCommunity :=
  match aces with
  | .read => { c with roViews := viewBind oid c.roViews }
  | .write => { c with rwViews := viewBind oid c.rwViews }

/-- `user_view_bind` -/
def userViewBind (oid : Oid) (aces : MibAces) (u : MibUser) : MibUser :=
  match aces with
  | .read => { u with roViews := viewBind oid u.roViews }
  | .write => { u with rwViews := viewBind oid u.rwViews }

/-- `community_create` -/
def communityCreate (communities : List MibCommunity) (name : Name) : List MibCommunity :=
  match mibCommunitySearch communities name with
  | none => { name := name, roViews := [], rwViews := [] } :: communities
  | some _ => communities

/-- `mib_community_reg` -/
def mibCommunityReg (s : ViewState) (oid : Oid) (name : Name) (aces : MibAces) :
    ViewState :=
  let bind := fun c => communityViewBind oid .read
    (if aces = .write then communityViewBind oid .write c else c)
  let communities := communityCreate s.communities name
  { s with communities := updateFirst (fun c => c.name = name) bind communities }

/-- The loop of `mib_community_unreg`. A matching community that keeps some views is not
passed over: the loop finds it again for ever (`none`). -/
def communityUnregLoop (name : Name) (aces : MibAces) :
    List MibCommunity → Option (List MibCommunity)
  | [] => some []
  | c :: cs =>
    if c.name = name then
      if aces = .read ∨ c.roViews = [] then communityUnregLoop name aces cs
      else none
    else (communityUnregLoop name aces cs).map (c :: ·)

/-- `mib_community_unreg`; `none` when it does not return. -/
def mibCommunityUnreg (s : ViewState) (name : Name) (aces : MibAces) : Option ViewState :=
  (communityUnregLoop name aces s.communities).map fun cs => { s with communities := cs }

/-- The key that `mib_user_create` generates from a phrase over the former contents. -/
def userKey (cr : Crypto) (authMode : UInt8) (old phrase : List UInt8) : List UInt8 :=
  if authMode = snmpUserAuthMd5 then pokeBytes old (cr.md5Key phrase)
  else if authMode = snmpUserAuthSha1 then pokeBytes old (cr.sha1Key phrase)
  else old

/-- `mib_user_create`. The fields of a new user are uninitialised memory, `uninit`, until
a phrase sets them. -/
def mibUserCreate (cr : Crypto) (uninit : UserSecrets) (s : ViewState) (user : Name)
    (authMode : UInt8) (authPhrase : List UInt8) (privMode : UInt8) (privPhrase : List UInt8) :
    ViewState :=
  let users := match mibUserSearch s.users user with
    | none => { name := user, secrets := uninit, roViews := [], rwViews := [] } :: s.users
    | some _ => s.users
  let auth := fun k : UserSecrets =>
    { k with authMode := authMode, authKey := userKey cr authMode k.authKey authPhrase }
  let priv := fun k : UserSecrets =>
    { k with privMode := privMode,
             privKey := (userKey cr authMode uninit.authKey privPhrase).take 16 }
  let secrets := fun k => if privPhrase.length = 0 then auth k else priv (auth k)
  let set := fun u : MibUser => { u with secrets := secrets u.secrets }
  if authPhrase.length = 0 then { s with users := users }
  else { s with users := updateFirst (fun u => u.name = user) set users }

/-- `mib_user_reg`: the user must exist. -/
def mibUserReg (s : ViewState) (oid : Oid) (user : Name) (aces : MibAces) : ViewState :=
  let bind := fun u => userViewBind oid .read
    (if aces = .write then userViewBind oid .write u else u)
  { s with users := updateFirst (fun u => u.name = user) bind s.users }

/-- The loop of `mib_user_unreg`. -/
def userUnregLoop (name : Name) (aces : MibAces) : List MibUser → Option (List MibUser)
  | [] => some []
  | u :: us =>
    if u.name = name then
      if aces = .read ∨ u.roViews = [] then userUnregLoop name aces us else none
    else (userUnregLoop name aces us).map (u :: ·)

/-- `mib_user_unreg`; `none` when it does not return. -/
def mibUserUnreg (s : ViewState) (user : Name) (aces : MibAces) : Option ViewState :=
  (userUnregLoop user aces s.users).map fun us => { s with users := us }

/-- Principals that the registration calls can build, when every view they register
satisfies `ok`. -/
inductive ViewState.Reachable (ok : Oid → Prop) : ViewState → Prop
  | init : Reachable ok {}
  | communityReg {s : ViewState} (oid : Oid) (name : Name) (aces : MibAces) :
      ok oid → Reachable ok s → Reachable ok (mibCommunityReg s oid name aces)
  | communityUnreg {s s' : ViewState} (name : Name) (aces : MibAces) :
      Reachable ok s → mibCommunityUnreg s name aces = some s' → Reachable ok s'
  | userCreate {s : ViewState} (cr : Crypto) (uninit : UserSecrets) (user : Name)
      (authMode : UInt8) (authPhrase : List UInt8) (privMode : UInt8)
      (privPhrase : List UInt8) :
      Reachable ok s →
      Reachable ok (mibUserCreate cr uninit s user authMode authPhrase privMode privPhrase)
  | userReg {s : ViewState} (oid : Oid) (user : Name) (aces : MibAces) :
      ok oid → Reachable ok s → Reachable ok (mibUserReg s oid user aces)
  | userUnreg {s s' : ViewState} (user : Name) (aces : MibAces) :
      Reachable ok s → mibUserUnreg s user aces = some s' → Reachable ok s'

/-! ### What holds of every view list -/

theorem mem_updateFirst {α : Type} {p : α → Bool} {f : α → α} {as : List α} {a : α}
    (h : a ∈ updateFirst p f as) : a ∈ as ∨ ∃ b ∈ as, a = f b := by
  induction as with
  | nil => simp [updateFirst] at h
  | cons b as ih =>
    rw [updateFirst] at h
    split at h
    · rcases mem_cons.mp h with rfl | h
      · exact .inr ⟨b, by simp, rfl⟩
      · exact .inl (by simp [h])
    · rcases mem_cons.mp h with rfl | h
      · exact .inl (by simp)
      · rcases ih h with h | ⟨c, hc, rfl⟩
        · exact .inl (by simp [h])
        · exact .inr ⟨c, by simp [hc], rfl⟩

/-- Unregistering a community keeps the others as they are. -/
theorem mem_of_communityUnregLoop {name : Name} {aces : MibAces} {cs cs' : List MibCommunity}
    (h : communityUnregLoop name aces cs = some cs') {c : MibCommunity} (hc : c ∈ cs') :
    c ∈ cs := by
  induction cs generalizing cs' with
  | nil =>
    obtain rfl : cs' = [] := by simpa [communityUnregLoop, eq_comm] using h
    exact hc
  | cons d cs ih =>
    rw [communityUnregLoop] at h
    split at h
    · split at h
      · exact mem_cons_of_mem d (ih h hc)
      · cases h
    · obtain ⟨cs'', hcs, rfl⟩ := map_eq_some_iff.mp h
      rcases mem_cons.mp hc with rfl | hc
      · exact mem_cons_self
      · exact mem_cons_of_mem d (ih hcs hc)

/-- Unregistering a user keeps the others as they are. -/
theorem mem_of_userUnregLoop {name : Name} {aces : MibAces} {us us' : List MibUser}
    (h : userUnregLoop name aces us = some us') {u : MibUser} (hu : u ∈ us') : u ∈ us := by
  induction us generalizing us' with
  | nil =>
    obtain rfl : us' = [] := by simpa [userUnregLoop, eq_comm] using h
    exact hu
  | cons d us ih =>
    rw [userUnregLoop] at h
    split at h
    · split at h
      · exact mem_cons_of_mem d (ih h hu)
      · cases h
    · obtain ⟨us'', hus, rfl⟩ := map_eq_some_iff.mp h
      rcases mem_cons.mp hu with rfl | hu
      · exact mem_cons_self
      · exact mem_cons_of_mem d (ih hus hu)

/-- All view lists of all principals satisfy `I`. -/
structure ViewState.Lists (I : List Oid → Prop) (s : ViewState) : Prop where
  /-- both lists of every community -/
  community : ∀ c ∈ s.communities, I c.roViews ∧ I c.rwViews
  /-- both lists of every user -/
  user : ∀ u ∈ s.users, I u.roViews ∧ I u.rwViews

variable {s : ViewState}

/-- **Run lemma.** A property of the empty list that binding keeps holds of every view
list of every reachable state. -/
theorem ViewState.Reachable.lists {ok : Oid → Prop} {I : List Oid → Prop} (hr : Reachable ok s)
    (hnil : I []) (hbind : ∀ oid views, ok oid → I views → I (viewBind oid views)) : Lists I s := by
  induction hr with
  | init => exact ⟨by simp, by simp⟩
  | @communityReg s oid name aces hok _ ih =>
    refine ⟨?_, ih.user⟩
    have hcreate : ∀ c ∈ communityCreate s.communities name, I c.roViews ∧ I c.rwViews := by
      intro c hc
      unfold communityCreate at hc
      split at hc
      · rcases mem_cons.mp hc with rfl | hc
        · exact ⟨hnil, hnil⟩
        · exact ih.community c hc
      · exact ih.community c hc
    intro c hc
    rcases mem_updateFirst hc with hc | ⟨d, hd, rfl⟩
    · exact hcreate c hc
    · obtain ⟨hro, hrw⟩ := hcreate d hd
      -- read-write access binds the view in both lists
      cases aces with
      | read => exact ⟨hbind oid _ hok hro, hrw⟩
      | write => exact ⟨hbind oid _ hok hro, hbind oid _ hok hrw⟩
  | communityUnreg name aces _ hun ih =>
    obtain ⟨cs, hcs, rfl⟩ := map_eq_some_iff.mp hun
    exact ⟨fun c hc => ih.community c (mem_of_communityUnregLoop hcs hc), ih.user⟩
  | @userCreate s cr uninit user authMode authPhrase privMode privPhrase _ ih =>
    have hcreate : ∀ u ∈ (match mibUserSearch s.users user with
        | none => MibUser.mk user uninit [] [] :: s.users
        | some _ => s.users), I u.roViews ∧ I u.rwViews := by
      intro u hu
      split at hu
      · rcases mem_cons.mp hu with rfl | hu
        · exact ⟨hnil, hnil⟩
        · exact ih.user u hu
      · exact ih.user u hu
    unfold mibUserCreate
    dsimp only
    split
    · exact ⟨ih.community, hcreate⟩
    · refine ⟨ih.community, fun u hu => ?_⟩
      rcases mem_updateFirst hu with hu | ⟨v, hv, rfl⟩
      · exact hcreate u hu
      · exact hcreate v hv
  | @userReg s oid user aces hok _ ih =>
    refine ⟨ih.community, fun u hu => ?_⟩
    rcases mem_updateFirst hu with hu | ⟨v, hv, rfl⟩
    · exact ih.user u hu
    · obtain ⟨hro, hrw⟩ := ih.user v hv
      cases aces with
      | read => exact ⟨hbind oid _ hok hro, hrw⟩
      | write => exact ⟨hbind oid _ hok hro, hbind oid _ hok hrw⟩
  | userUnreg user aces _ hun ih =>
    obtain ⟨us, hus, rfl⟩ := map_eq_some_iff.mp hun
    exact ⟨ih.community, fun u hu => ih.user u (mem_of_userUnregLoop hus hu)⟩

/-! ### Views of one list do not cover each other -/

/-- Neither OID is a prefix of the other. -/
def Incomparable (a b : Oid) : Prop := ¬ a <+: b ∧ ¬ b <+: a

instance instSymmIncomparable : Std.Symm Incomparable := ⟨fun _ _ h => ⟨h.2, h.1⟩⟩

/-- No view of the list covers another one. -/
def Antichain (views : List Oid) : Prop := views.Pairwise Incomparable

theorem viewFilter_sublist (oid : Oid) (views : List Oid) :
    (viewFilter oid views).2.Sublist views := by
  induction views with
  | nil => exact List.Sublist.refl _
  | cons v views ih =>
    rw [viewFilter]
    split
    · exact List.Sublist.refl _
    · split
      · exact ih.trans (sublist_cons_self v views)
      · exact ih.cons_cons v

/-- What is left when no view covers the OID is not covered by it either. -/
theorem viewFilter_incomparable (h : (viewFilter oid views).1 = false) :
    ∀ v ∈ (viewFilter oid views).2, Incomparable oid v := by
  induction views with
  | nil => simp [viewFilter]
  | cons v views ih =>
    rw [viewFilter] at h ⊢
    split at h
    · simp at h
    · next hpos =>
        rw [if_neg hpos]
        split at h
        · next hneg =>
            rw [if_pos hneg]
            exact ih h
        · next hneg =>
            rw [if_neg hneg]
            intro w hw
            rcases mem_cons.mp hw with rfl | hw
            · exact ((oidCover_eq_zero_iff w oid).mp (by omega)).symm
            · exact ih h w hw

theorem viewAdd_perm (oid : Oid) (views : List Oid) : (viewAdd oid views).Perm (oid :: views) := by
  induction views with
  | nil => exact List.Perm.refl _
  | cons v views ih =>
    rw [viewAdd]
    split
    · exact List.Perm.refl _
    · exact (ih.cons v).trans (List.Perm.swap oid v views)

/-- **Step lemma.** Binding a view keeps the list an antichain, whatever the
sub-identifiers. -/
theorem Antichain.viewBind (h : Antichain views) : Antichain (viewBind oid views) := by
  have hsub : Antichain (viewFilter oid views).2 := h.sublist (viewFilter_sublist oid views)
  unfold SmithSnmp.viewBind
  split
  · exact hsub
  · next hf =>
      have hinc := viewFilter_incomparable (Bool.eq_false_iff.mpr hf)
      exact ((viewAdd_perm oid _).pairwise_iff fun hab => Std.Symm.symm _ _ hab).mpr
        (pairwise_cons.mpr ⟨hinc, hsub⟩)

theorem Incomparable.not_cover {u v : Oid} (h : Incomparable u v) (hv : v <+: oid) : ¬ u <+: oid :=
  fun hu => Or.elim ( prefix_or_prefix_of_prefix hu hv) h.1 h.2

theorem Antichain.others {l r : List Oid} {v : Oid} (h : Antichain (l ++ v :: r)) :
    (∀ u ∈ l, Incomparable u v) ∧ ∀ u ∈ r, Incomparable u v := by
  obtain ⟨-, hbehind, hbefore⟩ := pairwise_append.mp h
  refine ⟨fun u hu => hbefore u hu v mem_cons_self, fun u hu => ?_⟩
  exact Std.Symm.symm _ _ ((pairwise_cons.mp hbehind).1 u hu)

theorem Antichain.nodup (h : Antichain views) : views.Nodup :=
  h.imp fun {a b} hab (heq : a = b) => hab.1 (heq ▸ prefix_refl a)

/-! ### Lists of views with small sub-identifiers are sorted -/

/-- The list is strictly ascending, and its sub-identifiers are below `2 ^ 31`. -/
def SmallSorted (views : List Oid) : Prop :=
  (∀ v ∈ views, Oid.Small v) ∧ views.Pairwise (· < ·)

/-- Adding an OID that is not in the list inserts it in order. -/
theorem SmallSorted.viewAdd (h : SmallSorted views) (ho : Oid.Small oid) (hnew : oid ∉ views) :
    SmallSorted (viewAdd oid views) := by
  refine ⟨?_, ?_⟩
  · intro v hv
    rcases mem_cons.mp ((viewAdd_perm oid views).mem_iff.mp hv) with rfl | hv
    · exact ho
    · exact h.1 v hv
  · induction views with
    | nil => simp [SmithSnmp.viewAdd]
    | cons v views ih =>
      obtain ⟨hhead, htail⟩ := pairwise_cons.mp h.2
      have hv : Oid.Small v := h.1 v (by simp)
      have hne : v ≠ oid := fun he => hnew (by simp [he])
      have hcmp := oidCmp_neg_iff_lt hv ho
      have hzero := oidCmp_eq_zero_iff v oid
      rw [SmithSnmp.viewAdd]
      split
      · next hpos =>
          have hlt : oid < v := by
            refine lt_of_le_of_ne (not_lt.mp fun hvo => ?_) hne.symm
            have := hcmp.mpr hvo
            omega
          refine pairwise_cons.mpr ⟨?_, h.2⟩
          intro w hw
          rcases mem_cons.mp hw with rfl | hw
          · exact hlt
          · exact hlt.trans (hhead w hw)
      · next hpos =>
          have hlt : v < oid := hcmp.mp (by
            have : oidCmp v oid ≠ 0 := fun h0 => hne (hzero.mp h0)
            omega)
          refine pairwise_cons.mpr ⟨?_, ih ⟨fun w hw => h.1 w (by simp [hw]), htail⟩
            (fun hm => hnew (by simp [hm]))⟩
          intro w hw
          rcases mem_cons.mp ((viewAdd_perm oid views).mem_iff.mp hw) with rfl | hw
          · exact hlt
          · exact hhead w hw

/-- **Step lemma.** Binding a view with small sub-identifiers keeps the list sorted. -/
theorem SmallSorted.viewBind (h : SmallSorted views) (ho : Oid.Small oid) :
    SmallSorted (viewBind oid views) := by
  have hsub := viewFilter_sublist oid views
  have hsorted : SmallSorted (viewFilter oid views).2 :=
    ⟨fun v hv => h.1 v (hsub.subset hv), h.2.sublist hsub⟩
  unfold SmithSnmp.viewBind
  split
  · exact hsorted
  · next hf =>
      have hinc := viewFilter_incomparable (Bool.eq_false_iff.mpr hf)
      refine hsorted.viewAdd ho fun hm => ?_
      exact (hinc oid hm).1 (prefix_refl oid)

theorem ViewState.Reachable.antichain {ok : Oid → Prop} (h : Reachable ok s) : Lists Antichain s :=
  h.lists List.Pairwise.nil fun _ _ _ ha => ha.viewBind

/-- When all registered sub-identifiers are below `2 ^ 31`, every list is strictly
ascending. -/
theorem ViewState.Reachable.sorted (h : Reachable Oid.Small s) : Lists SmallSorted s :=
  h.lists ⟨by simp, List.Pairwise.nil⟩ fun _ _ ho hs => hs.viewBind ho

/-! ### A user with a password -/

/-- Functions in the place of the cryptographic ones. -/
def plainCrypto : Crypto where
  md5Key pass := pass
  sha1Key pass := pass
  md5Hmac _ msg := (0, msg)
  sha1Hmac _ msg := (0, msg)
  aesEncrypt _ _ msg := msg
  aesDecrypt _ _ msg := msg
  aesEncrypt_length _ _ _ := rfl

/-- The user `u`, created with an authentication phrase, may read and write below `1`. -/
def passwordViews : ViewState :=
  mibUserReg (mibUserCreate plainCrypto ⟨0, 0, [], []⟩ {} [0x75] snmpUserAuthMd5 [0x70] 0 [])
    [1] [0x75] .write

end SmithSnmp
